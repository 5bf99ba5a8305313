import Csc469.Kheap.Chunks

/-! Every run of large requests: headers, chunks and the list of free chunks. -/
namespace Csc469.Kheap.BigRuns

open Execution Linked Tiling

/-- The heap, the blocks that the program has and not yet freed with the sizes it asked for, and
the chunks that it has freed and not got again. -/
structure Session where
  heap : Heap
  live : List (Nat × Nat)
  freed : List Nat

inductive Event where
  | malloc (sz : Nat)
  | free (ptr : Nat)
  | write (a : Nat) (word : Option Nat)

/-- `mm_malloc` from the size of a large block on, `mm_free` of a live pointer, and the program's
own writes to its blocks. -/
inductive Step : Session → Event → Session → Prop
  | malloc {s : Session} {t : Heap} {n sz p : Nat} (hsz : largestSubpageSize ≤ sz)
      (h : s.heap.mmMalloc n sz = .ok (t, some p)) :
      Step s (.malloc sz) ⟨t, (p, sz) :: s.live, s.freed.erase (header p)⟩
  | failed {s : Session} {t : Heap} {n sz : Nat} (hsz : largestSubpageSize ≤ sz)
      (h : s.heap.mmMalloc n sz = .ok (t, none)) : Step s (.malloc sz) ⟨t, s.live, s.freed⟩
  | free {s : Session} {t : Heap} {p sz : Nat} (hp : (p, sz) ∈ s.live)
      (h : s.heap.mmFree (some p) = .ok t) :
      Step s (.free p) ⟨t, without s.live p, header p :: s.freed⟩
  | write {s : Session} {p sz a : Nat} {word : Option Nat} (hp : (p, sz) ∈ s.live) (hle : p ≤ a)
      (hlt : a < p + sz) : Step s (.write a word) ⟨s.heap.write a word, s.live, s.freed⟩

/-- After `mm_init`. -/
structure Started (s : Session) : Prop where
  lo_pos : 0 < s.heap.sub.dsegLo
  hi : s.heap.sub.dsegHi + 1 = s.heap.sub.dsegLo
  sizebases : ∀ i, s.heap.sub.sizebases i = none
  bigchunks : s.heap.bigchunks = none
  live : s.live = []
  freed : s.freed = []

/-- The chunks in use and the free ones. -/
def Session.chunks (s : Session) (free : List Nat) : List Nat :=
  s.live.map (fun x => header x.1) ++ free

/-- What holds of the chunks, with `free` for those on the list. -/
structure Conserved (s : Session) (free : List Nat) : Prop where
  header : ∀ x ∈ s.live, 1 ≤ s.heap.npages (header x.1) ∧
    (x.2 : Int) + smallestSubpageSize ≤ s.heap.npages (header x.1) * pageSize
  apart : (s.chunks free).Pairwise fun c d =>
    c + s.heap.npages c * pageSize ≤ d ∨ d + s.heap.npages d * pageSize ≤ (c : Int)
  inside : ∀ c ∈ s.chunks free, s.heap.sub.dsegLo ≤ c ∧
    c + s.heap.npages c * pageSize ≤ s.heap.sub.dsegHi + 1
  pages : s.heap.pages (s.chunks free) * pageSize = s.heap.sub.dsegHi + 1 - s.heap.sub.dsegLo
  list : Chain s.heap.next s.heap.bigchunks free
  once : free.Nodup
  freed : free.Perm s.freed

/-- Neither `bigchunks` nor `mem_sbrk` has this many pages. -/
def Refused (h : Heap) (m : Int) : Prop :=
  0 < m ∧ (∃ free, Chain h.next h.bigchunks free ∧ ∀ c ∈ free, h.npages c < m) ∧ h.Full m

/-- The request fits an `int` with its header and the rounding, or is refused. -/
def Fits (s : Session) : Event → Prop
  | .malloc sz => sz + 4103 < 2 ^ 31 ∨ Refused s.heap (pagesFor sz)
  | _ => True

/-- The next large request that fits returns, and so does a free of a live pointer. -/
def Returns (s : Session) : Prop :=
  (∀ sz, largestSubpageSize ≤ sz → sz + 4103 < 2 ^ 31 → ∃ n x, s.heap.mmMalloc n sz = .ok x) ∧
    ∀ x ∈ s.live, ∃ t, s.heap.mmFree (some x.1) = .ok t

variable {s t : Session} {e : Event} {run : List (Event × Session)} {free : List Nat}
  {got : List (Nat × Nat)} {h u : Heap} {m : Int} {n p sz : Nat} {result : Option Nat}

/-- What every step keeps: `got` has all the memory that `mem_sbrk` gave. -/
structure Inv (s : Session) (free : List Nat) (got : List (Nat × Nat)) : Prop where
  lo_pos : 0 < s.heap.sub.dsegLo
  all : s.heap.sub.dsegLo + total got = s.heap.sub.dsegHi + 1
  sizebases : ∀ i, s.heap.sub.sizebases i = none
  large : Large s.heap (s.live.map fun x => header x.1) free got
  fits : ∀ x ∈ s.live,
    (x.2 : Int) + smallestSubpageSize ≤ s.heap.npages (header x.1) * pageSize
  freed : free.Perm s.freed

theorem inv_started (hs : Started s) : Inv s [] [] where
  lo_pos := hs.lo_pos
  all := by rw [total_nil, hs.hi, Nat.add_zero]
  sizebases := hs.sizebases
  large := by
    rw [hs.live]
    exact .initial hs.bigchunks
  fits := by simp [hs.live]
  freed := by rw [hs.freed]

namespace Inv

theorem conserved (hi : Inv s free got) : Conserved s free := by
  have hc := hi.large.chunks
  refine ⟨fun x hx => ⟨hc.npages_pos (List.mem_append_left free (mem_headers hx)), hi.fits x hx⟩,
    ?_, fun c hcs => ?_, ?_, hi.large.chain, hi.large.chain.nodup, hi.freed⟩
  · refine hc.nodup.imp_of_mem fun {c d} hcs hds hne => ?_
    have hbc := hc.bytes_eq hcs
    have hbd := hc.bytes_eq hds
    rcases hc.tiles.apart c d hcs hds hne with hapart | hapart
    · left
      omega
    · right
      omega
  · have hin := hc.within hcs
    have hb := hc.bytes_eq hcs
    omega
  · have hpages := hc.pages
    have hall := hi.all
    simp only [Session.chunks]
    omega

end Inv

section Malloc

theorem mmMalloc_large (hsz : largestSubpageSize ≤ sz) : h.mmMalloc n sz = h.bigKmalloc n sz :=
  if_pos hsz

theorem refused_of_outcome (hc : Chain h.next h.bigchunks free) (hx : Outcome h m free (u, none)) :
    Refused h m := by
  obtain ⟨-, hall, hpos, hfull⟩ := hx.refused_of_none rfl
  exact ⟨hpos, ⟨free, hc, hall⟩, hfull⟩

/-- A refused request changes nothing. -/
theorem outcome_of_refused (hc : Chain h.next h.bigchunks free) (hr : Refused h m)
    {x : Heap × Option Nat} (hx : Outcome h m free x) : x = (h, none) := by
  obtain ⟨-, ⟨free', hc', hall⟩, hfull⟩ := hr
  obtain rfl := Chain.unique hc hc'
  cases hx with
  | carved hmem hlt => exact absurd hlt (Int.not_lt.mpr (Int.le_of_lt (hall _ hmem)))
  | @taken l r tmp hfree heq =>
    have := hall tmp (by simp [hfree])
    omega
  | grown _ _ hroom => exact (hroom hfull).elim
  | refused _ _ _ => rfl

theorem inv_malloc (hi : Inv s free got) (hsz : sz + 4103 < 2 ^ 31)
    (hok : s.heap.bigKmalloc n sz = .ok (u, some p)) :
    ∃ free' got', Inv ⟨u, (p, sz) :: s.live, s.freed.erase (header p)⟩ free' got' := by
  have hle : s.heap.sub.dsegLo ≤ s.heap.sub.dsegHi + 1 := by
    have := hi.all
    omega
  obtain ⟨hpos, hfit⟩ := fits_iff.mpr hsz
  rcases hi.large.kmalloc hle hpos hok with ⟨hnone, -⟩ | ⟨c, got', hp, hg⟩
  · cases hnone
  · cases hp
    refine ⟨free.erase c, got', ?_⟩
    constructor
    · simp only [hg.dsegLo]
      exact hi.lo_pos
    · have hall := hi.all
      rcases hg.memory with ⟨hsub, hgot⟩ | ⟨hsub, -, hgot⟩
      · simp only [hsub, hgot]
        exact hall
      · simp only [hsub, hgot, State.widened, total_cons]
        omega
    · simp only [hg.sizebases]
      exact hi.sizebases
    · rw [List.map_cons, header_add]
      exact hg.large
    · intro x hx
      rcases List.mem_cons.mp hx with rfl | hx
      · rw [header_add, hg.npages]
        exact hfit
      · rw [hg.kept _ (mem_headers hx)]
        exact hi.fits x hx
    · rw [header_add]
      exact hi.freed.erase c

end Malloc

section Free

/-- No page of blocks is in use. -/
theorem subpageKfree_none {v : State} (hs : ∀ i, v.sizebases i = none) (p : Nat) :
    Release.subpageKfree v p = .ok (v, -1) := by
  have hfind : ∀ is, Release.findOwner v p is = .ok none := by
    intro is
    induction is with
    | nil => rfl
    | cons i is ih =>
      have hin : Release.findIn v p v.refs.length none = .ok none := by
        cases v.refs.length <;> rfl
      rw [Release.findOwner, hs, hin]
      exact ih
  rw [Release.subpageKfree, hfind]
  rfl

theorem mmFree_large (hi : Inv s free got) (p : Nat) :
    s.heap.mmFree (some p) = .ok (s.heap.bigKfree p) := by
  rw [Heap.mmFree, subpageKfree_none hi.sizebases]
  rfl

theorem inv_free (hi : Inv s free got) (hp : (p, sz) ∈ s.live) :
    Inv ⟨s.heap.bigKfree p, without s.live p, header p :: s.freed⟩ (header p :: free) got := by
  obtain ⟨hl, hn⟩ := hi.large.kfree_block hi.lo_pos hp
  refine ⟨hi.lo_pos, hi.all, hi.sizebases, hl, fun x hx => ?_, hi.freed.cons _⟩
  rw [hn]
  exact hi.fits x (mem_without.mp hx).1

end Free

/-- A block ends where its chunk does, or before. -/
theorem inv_write {a : Nat} (word : Option Nat) (hi : Inv s free got) (hp : (p, sz) ∈ s.live)
    (hle : p ≤ a) (hlt : a < p + sz) : Inv ⟨s.heap.write a word, s.live, s.freed⟩ free got := by
  have hbytes : (s.heap.bytes (header p) : Int) = s.heap.npages (header p) * pageSize :=
    hi.large.chunks.bytes_eq (List.mem_append_left free (mem_headers hp))
  have hfit : (sz : Int) + smallestSubpageSize ≤ s.heap.npages (header p) * pageSize :=
    hi.fits (p, sz) hp
  have hptr := hi.large.ptr_eq hi.lo_pos hp
  obtain ⟨hl, hn⟩ := hi.large.write_block word hi.lo_pos hp hle (by omega)
  refine ⟨hi.lo_pos, hi.all, hi.sizebases, hl, fun x hx => ?_, hi.freed⟩
  rw [hn _ (List.mem_append_left free (mem_headers hx))]
  exact hi.fits x hx

/-- A step keeps the invariant when the request fits, and otherwise the header shows it. -/
theorem step_iff (hi : ∃ free got, Inv s free got) (hs : Step s e t) :
    ((∃ free, Conserved t free) ↔ Fits s e) ∧ (Fits s e → ∃ free got, Inv t free got) := by
  obtain ⟨free, got, hi⟩ := hi
  have hkeep : ∀ {u : Session}, (∃ free got, Inv u free got) → ∃ free, Conserved u free := by
    rintro u ⟨free, got, hu⟩
    exact ⟨free, hu.conserved⟩
  cases hs with
  | @malloc u n sz p hsz hok =>
    rw [mmMalloc_large hsz] at hok
    have hout := outcome_of_ok hi.large.chain hok
    have hfit : Fits s (.malloc sz) → sz + 4103 < 2 ^ 31 := by
      rintro (hlt | href)
      · exact hlt
      · cases outcome_of_refused hi.large.chain href hout
    refine ⟨⟨?_, fun hf => hkeep (inv_malloc hi (hfit hf) hok)⟩, fun hf =>
      inv_malloc hi (hfit hf) hok⟩
    rintro ⟨free', hc⟩
    have hheader := hc.header (p, sz) (by simp)
    simp only [hout.header rfl] at hheader
    exact .inl (fits_iff.mp hheader)
  | @failed u n sz hsz hok =>
    rw [mmMalloc_large hsz] at hok
    have href := refused_of_outcome hi.large.chain (outcome_of_ok hi.large.chain hok)
    cases outcome_of_refused hi.large.chain href (outcome_of_ok hi.large.chain hok)
    exact ⟨⟨fun _ => .inr href, fun _ => hkeep ⟨free, got, hi⟩⟩, fun _ => ⟨free, got, hi⟩⟩
  | @free u p sz hp hok =>
    rw [mmFree_large hi] at hok
    cases hok
    exact ⟨⟨fun _ => trivial, fun _ => hkeep ⟨_, _, inv_free hi hp⟩⟩, fun _ => ⟨_, _, inv_free hi hp⟩⟩
  | @write p sz a word hp hle hlt =>
    have hw := inv_write word hi hp hle hlt
    exact ⟨⟨fun _ => trivial, fun _ => hkeep ⟨_, _, hw⟩⟩, fun _ => ⟨_, _, hw⟩⟩

theorem bigKmalloc_ok (hc : Chain h.next h.bigchunks free) (hm : 0 < pagesFor sz) :
    ∃ x, h.bigKmalloc free.length sz = .ok x := by
  obtain ⟨⟨v, res⟩, hfind⟩ :
      ∃ x, h.findChunk (pagesFor sz) free.length none h.bigchunks = .ok x :=
    findChunk_ok hc (Nat.le_refl _)
  rw [Heap.bigKmalloc, hfind]
  cases res with
  | some result => exact ⟨_, rfl⟩
  | none =>
    obtain ⟨⟨hdr, w⟩, hsbrk⟩ := memSbrkBytes_ok v.sub hm (pagesFor_range sz).2
    cases hdr <;> exact ⟨_, bind_eq_ok.mpr ⟨_, rfl, bind_eq_ok.mpr ⟨_, hsbrk, rfl⟩⟩⟩

theorem Inv.returns (hi : Inv s free got) : Returns s := by
  refine ⟨fun sz hsz hlt => ⟨free.length, ?_⟩, fun x _ => ⟨_, mmFree_large hi x.1⟩⟩
  rw [mmMalloc_large hsz]
  exact bigKmalloc_ok hi.large.chain (fits_iff.mpr hlt).1

theorem inv_run (hi : ∃ free got, Inv s free got) (hr : Along Step s run)
    (hf : Along (fun u e _ => Fits u e) s run) : ∃ free got, Inv (lastState s run) free got := by
  induction run generalizing s with
  | nil => exact hi
  | cons x rest ih => exact ih ((step_iff hi hr.1).2 hf.1) hr.2 hf.2

/-- In a run of large requests the chunks have what `mem_sbrk` gave, each in one place, and every
block has its size, as long as each request fits or is refused; and then the next call returns. -/
theorem big_chunks_iff (hs : Started s) (hr : Along Step s run) :
    ((∀ x ∈ run, ∃ free, Conserved x.2 free) ↔ Along (fun u e _ => Fits u e) s run) ∧
      (Along (fun u e _ => Fits u e) s run → Returns (lastState s run)) := by
  have hi : ∃ free got, Inv s free got := ⟨_, _, inv_started hs⟩
  constructor
  · rw [← along_states (P := fun u => ∃ free, Conserved u free)]
    exact along_iff (fun _ _ _ hi hs => step_iff hi hs) hi hr
  · intro hf
    obtain ⟨free, got, hlast⟩ := inv_run hi hr hf
    exact hlast.returns

/-- A heap of 256 MB from the first page on. -/
def started : Session where
  heap :=
    { sub :=
        { dsegLo := pageSize
          dsegHi := pageSize - 1
          dsegSize := 2 ^ 28
          freshRefs := none
          recycledRefs := none
          sizebases := fun _ => none
          ref := fun _ => ⟨none, none, 0, 0⟩
          link := fun _ => none
          refs := [] }
      chunk := fun _ => ⟨0, none⟩
      bigchunks := none }
  live := []
  freed := []

theorem started_started : Started started := by
  constructor <;> first | rfl | decide | exact fun _ => rfl

/-- Two pages, which are freed, and one of them for the next request. -/
theorem big_chunks_iff_carved : ∃ run, Started started ∧ Along Step started run ∧
    run.map (fun x => x.2.live) = [[(4104, 5000)], [], [(8200, 3000)]] ∧
    (∀ x ∈ run, ∃ free, Conserved x.2 free) ∧ Returns (lastState started run) := by
  have h1 : (started.heap.mmMalloc 0 5000).toOption.map Prod.snd = some (some 4104) := by
    decide +kernel
  obtain ⟨⟨u, -⟩, hu, rfl⟩ := ok_of_map h1
  have h2 : (started.heap.mmMalloc 0 5000 >>= fun x => x.1.mmFree (some 4104) >>= fun v =>
      v.mmMalloc 1 3000).toOption.map Prod.snd = some (some 8200) := by
    decide +kernel
  obtain ⟨⟨w, -⟩, hw, rfl⟩ := ok_of_map h2
  rw [hu] at hw
  have hw : (u.mmFree (some 4104) >>= fun v => v.mmMalloc 1 3000) = .ok (w, some 8200) := hw
  obtain ⟨v, hv, hw⟩ := ok_of_bind hw
  let run : List (Event × Session) := [(.malloc 5000, ⟨u, [(4104, 5000)], []⟩),
    (.free 4104, ⟨v, [], [4096]⟩), (.malloc 3000, ⟨w, [(8200, 3000)], [4096]⟩)]
  have hlive : (4104, 5000) ∈ [(4104, 5000)] := List.mem_cons_self
  have hr : Along Step started run :=
    ⟨.malloc (by decide) hu, .free hlive hv, .malloc (by decide) hw, trivial⟩
  have hf : Along (fun u e _ => Fits u e) started run :=
    ⟨.inl (by decide), trivial, .inl (by decide), trivial⟩
  exact ⟨run, started_started, hr, rfl, (big_chunks_iff started_started hr).1.mpr hf,
    (big_chunks_iff started_started hr).2 hf⟩

/-- A request of 4 GB gets one page. -/
theorem short_chunk : ∃ run, Started started ∧ Along Step started run ∧
    run.map (fun x => (x.1, x.2.live)) = [(.malloc (2 ^ 32), [(4104, 2 ^ 32)])] ∧
    ¬∀ x ∈ run, ∃ free, Conserved x.2 free := by
  have h1 : (started.heap.mmMalloc 0 (2 ^ 32)).toOption.map (fun x => (x.2, x.1.npages 4096)) =
      some (some 4104, 1) := by
    decide +kernel
  obtain ⟨⟨u, p⟩, hu, hx⟩ := ok_of_map h1
  obtain ⟨rfl, hn⟩ : p = some 4104 ∧ u.npages 4096 = 1 := Prod.mk.inj hx
  refine ⟨[(.malloc (2 ^ 32), ⟨u, [(4104, 2 ^ 32)], []⟩)], started_started,
    ⟨.malloc (by decide) hu, trivial⟩, rfl, fun hc => ?_⟩
  obtain ⟨free, hc⟩ := hc _ List.mem_cons_self
  have hheader := (hc.header (4104, 2 ^ 32) List.mem_cons_self).2
  rw [show header 4104 = 4096 from rfl, hn] at hheader
  exact absurd hheader (by decide)

end Csc469.Kheap.BigRuns
