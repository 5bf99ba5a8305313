import Csc469.Kheap.Pagerefs
import Csc469.Kheap.Release

/-! `kheap.c`: the allocations of whole pages, and `mm_malloc` and `mm_free` over both kinds. -/
namespace Csc469.Kheap

open Execution Linked

/-- The header of a large chunk. -/
def smallestSubpageSize : Nat := 8

structure BigFreelist where
  npages : Int
  next : Option Nat

/-- A conversion to `int`, or a sum or product of two of them: it wraps. -/
def int32 (x : Int) : Int := x.bmod (2 ^ 32)

/-- The pages of a request in `big_kmalloc`, which takes an `int`. -/
def pagesFor (sz : Nat) : Int :=
  let sz := int32 sz
  let sz := int32 (sz + smallestSubpageSize)
  (int32 (int32 (sz + pageSize) - 1)).tdiv pageSize

/-- `mem_sbrk`, whose assertion is compiled in. -/
def memSbrkBytes (s : State) (increment : Int) : Call (Option Nat × State) := do
  assert (0 < increment)
  if s.dsegHi + increment ≤ s.dsegLo + s.dsegSize then
    .ok (some (s.dsegHi + 1), { s with dsegHi := (s.dsegHi + increment).toNat })
  else .ok (none, s)

/-- The chunk of a pointer. -/
def header (ptr : Nat) : Nat := ptr - smallestSubpageSize

@[simp] theorem header_add (c : Nat) : header (c + smallestSubpageSize) = c := Nat.add_sub_cancel ..

/-- The subpage allocator, the headers of large chunks by address, and the list of the free ones. -/
structure Heap where
  sub : State
  chunk : Nat → BigFreelist
  bigchunks : Option Nat

namespace Heap

def setChunk (h : Heap) (a : Nat) (f : BigFreelist → BigFreelist) : Heap :=
  { h with chunk := Function.update h.chunk a (f (h.chunk a)) }

/-- The last pages of the chunk at `tmp` become one of their own. -/
def carve (h : Heap) (tmp : Nat) (npages : Int) : Heap × Option Nat :=
  let left := int32 ((h.chunk tmp).npages - npages)
  let h := h.setChunk tmp fun c => { c with npages := left }
  let hdr := (tmp + int32 (left * pageSize)).toNat
  (h.setChunk hdr fun c => { c with npages := npages }, some (hdr + smallestSubpageSize))

/-- The chunk at `tmp`, behind the one at `prev`, leaves the list. -/
def take (h : Heap) (prev : Option Nat) (tmp : Nat) : Heap × Option Nat :=
  let h := match prev with
    | some prev => h.setChunk prev fun c => { c with next := (h.chunk tmp).next }
    | none => { h with bigchunks := (h.chunk tmp).next }
  (h, some (tmp + smallestSubpageSize))

/-- The loop of `big_kmalloc` over the free chunks, of `n` rounds at most. -/
def findChunk (h : Heap) (npages : Int) : Nat → Option Nat → Option Nat → Call (Heap × Option Nat)
  | _, _, none => .ok (h, none)
  | 0, _, some _ => .error .loops
  | n + 1, prev, some tmp =>
    if npages < (h.chunk tmp).npages then .ok (h.carve tmp npages)
    else if (h.chunk tmp).npages = npages then .ok (h.take prev tmp)
    else findChunk h npages n (some tmp) (h.chunk tmp).next

/-- `big_kmalloc`. -/
def bigKmalloc (h : Heap) (n sz : Nat) : Call (Heap × Option Nat) := do
  let npages := pagesFor sz
  match ← findChunk h npages n none h.bigchunks with
  | (h, some result) => .ok (h, some result)
  | (h, none) =>
    match ← memSbrkBytes h.sub (int32 (npages * pageSize)) with
    | (none, s) => .ok ({ h with sub := s }, none)
    | (some hdr, s) =>
      .ok ({ h with sub := s }.setChunk hdr fun c => { c with npages := npages },
        some (hdr + smallestSubpageSize))

/-- `big_kfree`. -/
def bigKfree (h : Heap) (ptr : Nat) : Heap :=
  let hdr := header ptr
  { h.setChunk hdr fun c => { c with next := h.bigchunks } with bigchunks := some hdr }

/-- `mm_malloc`, which holds the lock throughout. -/
def mmMalloc (h : Heap) (n sz : Nat) : Call (Heap × Option Nat) :=
  if largestSubpageSize ≤ sz then h.bigKmalloc n sz
  else do
    let (s, result) ← Release.subpageKmalloc h.sub sz
    .ok ({ h with sub := s }, result)

/-- `mm_free`: what is on none of the pages is taken for a big allocation. -/
def mmFree (h : Heap) : Option Nat → Call Heap
  | none => .ok h
  | some ptr => do
    let (s, res) ← Release.subpageKfree h.sub ptr
    if res ≠ 0 then .ok ({ h with sub := s }.bigKfree ptr) else .ok { h with sub := s }

/-- The program writes a word: to a block of a page, or to where a chunk has its fields. -/
def write (h : Heap) (a : Nat) (word : Option Nat) : Heap :=
  { h with
    sub := h.sub.setLink a word
    chunk := fun x =>
      { npages := if x = a then int32 (word.getD 0) else (h.chunk x).npages
        next := if x + smallestSubpageSize = a then word else (h.chunk x).next } }

def next (h : Heap) (a : Nat) : Option Nat := (h.chunk a).next

def npages (h : Heap) (a : Nat) : Int := (h.chunk a).npages

end Heap

variable {h t : Heap} {free : List Nat} {cur prev result : Option Nat} {m : Int} {a b c n p sz : Nat}

section Pages

theorem int32_range (x : Int) : -2 ^ 31 ≤ int32 x ∧ int32 x < 2 ^ 31 :=
  ⟨Int.le_bmod (by decide), Int.bmod_lt (by decide)⟩

theorem int32_of_range {x : Int} (hlo : -2 ^ 31 ≤ x) (hhi : x < 2 ^ 31) : int32 x = x :=
  (Int.bmod_eq_iff (by decide)).mpr ⟨by omega, by omega, by simp⟩

/-- The whole sum is computed in `int`. -/
theorem pagesFor_eq (sz : Nat) : pagesFor sz = (int32 (sz + 4103)).tdiv pageSize := by
  have hsum : (sz : Int) + 8 + 4096 - 1 = sz + 4103 := by omega
  simp [pagesFor, int32, smallestSubpageSize, pageSize, hsum]

theorem pagesFor_range (sz : Nat) : -2 ^ 19 ≤ pagesFor sz ∧ pagesFor sz < 2 ^ 19 := by
  have hrange := int32_range (sz + 4103)
  have hsign : ((4096 : Nat) : Int).sign = 1 := rfl
  rw [pagesFor_eq, pageSize, Int.tdiv_eq_ediv, hsign]
  split <;> omega

/-- A request that an `int` holds together with its header and the rounding. -/
theorem pagesFor_of_lt (hsz : sz + 4103 < 2 ^ 31) : pagesFor sz = ((sz + 4103) / pageSize : Nat) := by
  rw [pagesFor_eq, int32_of_range (by omega) (by omega), Int.tdiv_eq_ediv_of_nonneg (by omega)]
  exact (Int.natCast_ediv (sz + 4103) pageSize).symm

/-- No other request gets as many pages as it needs. -/
theorem fits_iff : (1 ≤ pagesFor sz ∧ (sz : Int) + smallestSubpageSize ≤ pagesFor sz * pageSize) ↔
    sz + 4103 < 2 ^ 31 := by
  simp only [smallestSubpageSize, pageSize]
  constructor
  · rintro ⟨-, hle⟩
    have hrange := pagesFor_range sz
    omega
  · intro hsz
    have heq := pagesFor_of_lt hsz
    simp only [pageSize] at heq
    omega

/-- The bytes of a number of pages fit an `int` too. -/
theorem int32_pages (hlo : -2 ^ 19 ≤ m) (hhi : m < 2 ^ 19) :
    int32 (m * pageSize) = m * pageSize := by
  rw [pageSize]
  exact int32_of_range (by omega) (by omega)

end Pages

section Fields

theorem setChunk_npages {f : BigFreelist → BigFreelist} : (h.setChunk a f).npages b =
    if b = a then (f (h.chunk a)).npages else h.npages b := by
  by_cases hb : b = a
  · subst hb
    simp [Heap.npages, Heap.setChunk]
  · simp [Heap.npages, Heap.setChunk, hb]

theorem setChunk_next {f : BigFreelist → BigFreelist} : (h.setChunk a f).next b =
    if b = a then (f (h.chunk a)).next else h.next b := by
  by_cases hb : b = a
  · subst hb
    simp [Heap.next, Heap.setChunk]
  · simp [Heap.next, Heap.setChunk, hb]

@[simp] theorem setNpages_next : (h.setChunk a fun c => { c with npages := m }).next = h.next := by
  funext b
  rw [setChunk_next]
  split <;> simp [Heap.next, *]

@[simp] theorem setNext_npages :
    (h.setChunk a fun c => { c with next := cur }).npages = h.npages := by
  funext b
  rw [setChunk_npages]
  split <;> simp [Heap.npages, *]

@[simp] theorem carve_next : (h.carve a m).1.next = h.next := by simp [Heap.carve]

@[simp] theorem take_npages : (h.take prev a).1.npages = h.npages := by
  cases prev with
  | none => rfl
  | some z => exact setNext_npages

@[simp] theorem take_sub : (h.take prev a).1.sub = h.sub := by cases prev <;> rfl

/-- Without the chunk at `tmp`, the free chunks that are left are linked as before. -/
theorem take_chain {l r : List Nat} (hc : Chain h.next h.bigchunks (l ++ a :: r)) :
    Chain (h.take l.getLast? a).1.next (h.take l.getLast? a).1.bigchunks (l ++ r) := by
  rcases List.eq_nil_or_concat' l with rfl | ⟨l, z, rfl⟩
  · exact hc.2
  · have hnd := List.nodup_append.mp hc.nodup
    have hz : z ∉ l ∧ z ∉ r := by
      constructor
      · intro hz
        exact (List.nodup_append.mp hnd.1).2.2 z hz z (by simp) rfl
      · intro hz
        exact hnd.2.2 z (by simp) z (by simp [hz]) rfl
    have hother : ∀ y, y ≠ z →
        (h.setChunk z fun c => { c with next := (h.chunk a).next }).next y = h.next y := fun y hy => by
      rw [setChunk_next, if_neg hy]
    rw [List.append_assoc, List.singleton_append] at hc ⊢
    rw [List.getLast?_concat]
    refine hc.skip ?_ (fun y hy => hother y fun he => hz.1 (he ▸ hy)) fun y hy =>
      hother y fun he => hz.2 (he ▸ hy)
    show (h.setChunk z fun c => { c with next := (h.chunk a).next }).next z = h.next a
    rw [setChunk_next, if_pos rfl]
    rfl

end Fields

section FirstFit

/-- How the loop ends: at the first chunk that is large enough, if there is one. -/
inductive Found (h : Heap) (m : Int) (prev : Option Nat) (free : List Nat) : Heap × Option Nat → Prop
  | carved {tmp : Nat} (hmem : tmp ∈ free) (hlt : m < h.npages tmp) :
      Found h m prev free (h.carve tmp m)
  | taken {l r : List Nat} {tmp : Nat} (hfree : free = l ++ tmp :: r) (heq : h.npages tmp = m) :
      Found h m prev free (h.take (l.getLast?.or prev) tmp)
  | none (hall : ∀ c ∈ free, h.npages c < m) : Found h m prev free (h, none)

theorem found_of_ok {x : Heap × Option Nat} (hc : Chain h.next cur free)
    (hx : h.findChunk m n prev cur = .ok x) : Found h m prev free x := by
  induction n generalizing prev cur free with
  | zero =>
    cases cur with
    | none =>
      cases hx
      obtain rfl : free = [] := List.head?_eq_none_iff.mp (Chain.head_eq hc).symm
      exact .none (by simp)
    | some tmp => cases hx
  | succ n ih =>
    cases cur with
    | none =>
      cases hx
      obtain rfl : free = [] := List.head?_eq_none_iff.mp (Chain.head_eq hc).symm
      exact .none (by simp)
    | some tmp =>
      cases free with
      | nil => cases hc
      | cons c free =>
        obtain ⟨he, hc⟩ := hc
        cases he
        rw [Heap.findChunk] at hx
        split at hx
        · cases hx
          exact .carved (by simp) (by assumption)
        · split at hx
          · cases hx
            exact .taken (l := []) rfl (by assumption)
          · rename_i hlt hne
            cases ih hc hx with
            | carved hmem hlt => exact .carved (by simp [hmem]) hlt
            | @taken l r d hfree heq =>
              have hlast : (tmp :: l).getLast?.or prev = l.getLast?.or (some tmp) := by
                cases hl : l.getLast? <;> simp [List.getLast?_cons, hl]
              rw [← hlast]
              exact .taken (by rw [hfree, List.cons_append]) heq
            | none hall =>
              refine .none fun d hd => ?_
              rcases List.mem_cons.mp hd with rfl | hd
              · simp only [Heap.npages]
                omega
              · exact hall d hd

theorem findChunk_ok (hc : Chain h.next cur free) (hn : free.length ≤ n) :
    ∃ x, h.findChunk m n prev cur = .ok x := by
  induction free generalizing n prev cur with
  | nil =>
    obtain rfl : cur = none := hc
    cases n <;> exact ⟨_, rfl⟩
  | cons tmp free ih =>
    obtain ⟨rfl, hc⟩ := hc
    cases n with
    | zero => simp at hn
    | succ n =>
      rw [Heap.findChunk]
      split
      · exact ⟨_, rfl⟩
      · split
        · exact ⟨_, rfl⟩
        · exact ih hc (by simpa using hn)

/-- A new chunk at the end of the data segment. -/
def Heap.grow (h : Heap) (m : Int) : Heap × Option Nat :=
  ({ h with sub := h.sub.widened (m * pageSize).toNat }.setChunk (h.sub.dsegHi + 1)
    fun c => { c with npages := m }, some (h.sub.dsegHi + 1 + smallestSubpageSize))

/-- `mem_sbrk` has no room for this many pages. -/
def Heap.Full (h : Heap) (m : Int) : Prop :=
  (h.sub.dsegLo + h.sub.dsegSize : Nat) < h.sub.dsegHi + m * pageSize

/-- How `big_kmalloc` ends when it returns. -/
inductive Outcome (h : Heap) (m : Int) (free : List Nat) : Heap × Option Nat → Prop
  | carved {tmp : Nat} (hmem : tmp ∈ free) (hlt : m < h.npages tmp) :
      Outcome h m free (h.carve tmp m)
  | taken {l r : List Nat} {tmp : Nat} (hfree : free = l ++ tmp :: r) (heq : h.npages tmp = m) :
      Outcome h m free (h.take l.getLast? tmp)
  | grown (hall : ∀ c ∈ free, h.npages c < m) (hpos : 0 < m) (hroom : ¬h.Full m) :
      Outcome h m free (h.grow m)
  | refused (hall : ∀ c ∈ free, h.npages c < m) (hpos : 0 < m) (hfull : h.Full m) :
      Outcome h m free (h, none)

/-- The header of whatever is returned. -/
theorem Outcome.header {x : Heap × Option Nat} (hx : Outcome h m free x) (hp : x.2 = some p) :
    x.1.npages (header p) = m := by
  cases hx with
  | carved hmem hlt =>
    cases hp
    rw [header_add, Heap.carve, setChunk_npages, if_pos rfl]
  | taken hfree heq =>
    cases hp
    rw [header_add, take_npages, heq]
  | grown hall hpos hroom =>
    cases hp
    rw [header_add, Heap.grow, setChunk_npages, if_pos rfl]
  | refused hall hpos hfull => cases hp

theorem Outcome.refused_of_none {x : Heap × Option Nat} (hx : Outcome h m free x) (hp : x.2 = none) :
    x.1 = h ∧ (∀ c ∈ free, h.npages c < m) ∧ 0 < m ∧ h.Full m := by
  cases hx with
  | carved hmem hlt => cases hp
  | taken hfree heq => cases hp
  | grown hall hpos hroom => cases hp
  | refused hall hpos hfull => exact ⟨rfl, hall, hpos, hfull⟩

theorem memSbrkBytes_pages (s : State) (hlo : -2 ^ 19 ≤ m) (hhi : m < 2 ^ 19) :
    memSbrkBytes s (int32 (m * pageSize)) =
      if 0 < m then
        if s.dsegHi + m * pageSize ≤ s.dsegLo + s.dsegSize then
          .ok (some (s.dsegHi + 1), s.widened (m * pageSize).toNat)
        else .ok (none, s)
      else .error .fault := by
  rw [int32_pages hlo hhi, memSbrkBytes]
  by_cases hm : 0 < m
  · have hpos : 0 < m * (pageSize : Int) := Int.mul_pos hm (by decide)
    have hhi' : (s.dsegHi + m * pageSize).toNat = s.dsegHi + (m * pageSize).toNat := by omega
    rw [if_pos hm, assert, if_pos hpos, hhi']
    rfl
  · have hneg : ¬0 < m * (pageSize : Int) := by
      simp only [pageSize]
      omega
    rw [if_neg hm, assert, if_neg hneg]
    rfl

theorem memSbrkBytes_ok (s : State) (hm : 0 < m) (hhi : m < 2 ^ 19) :
    ∃ y, memSbrkBytes s (int32 (m * pageSize)) = .ok y := by
  rw [memSbrkBytes_pages s (by omega) hhi, if_pos hm]
  split <;> exact ⟨_, rfl⟩

theorem outcome_of_ok {x : Heap × Option Nat} (hc : Chain h.next h.bigchunks free)
    (hx : h.bigKmalloc n sz = .ok x) : Outcome h (pagesFor sz) free x := by
  obtain ⟨hlo, hhi⟩ := pagesFor_range sz
  obtain ⟨y, hy, hx⟩ := ok_of_bind hx
  cases found_of_ok hc hy with
  | carved hmem hlt =>
    cases hx
    exact .carved hmem hlt
  | taken hfree heq =>
    cases hx
    rw [Option.or_none]
    exact .taken hfree heq
  | none hall =>
    simp only [memSbrkBytes_pages h.sub hlo hhi] at hx
    by_cases hpos : 0 < pagesFor sz
    · rw [if_pos hpos] at hx
      by_cases hroom : h.sub.dsegHi + pagesFor sz * pageSize ≤ h.sub.dsegLo + h.sub.dsegSize
      · rw [if_pos hroom] at hx
        cases hx
        exact .grown hall hpos (Int.not_lt.mpr hroom)
      · rw [if_neg hroom] at hx
        cases hx
        exact .refused hall hpos (Int.not_le.mp hroom)
    · rw [if_neg hpos] at hx
      cases hx

end FirstFit
end Csc469.Kheap
