import Csc469.Simulation

/-! Memory that is given out in blocks: what a program may rely on, whoever gives them out. -/
namespace Csc469.Blocks

open Execution Simulation

/-- The addresses from `base` on, `size` of them. -/
structure Block where
  base : Nat
  size : Nat
  deriving DecidableEq

/-- The word of `w` bytes at `a` lies in the block. -/
def Block.Holds (w : Nat) (b : Block) (a : Nat) : Prop := b.base ≤ a ∧ a + w ≤ b.base + b.size

/-- The blocks have no address in common, and each its own pointer. -/
def Apart (b c : Block) : Prop :=
  b.base ≠ c.base ∧ (b.base + b.size ≤ c.base ∨ c.base + c.size ≤ b.base)

/-- The words at `a` and at `x` have no byte in common. -/
def Beside (w a x : Nat) : Prop := a + w ≤ x ∨ x + w ≤ a

/-- The blocks that the program has, and the words in memory by address. -/
structure Memory (V : Type*) where
  blocks : List Block
  word : Nat → V

inductive Op (V : Type*) where
  | malloc (size : Nat)
  | free (base : Nat)
  | store (a : Nat) (v : V)

variable {V : Type*} {w a x : Nat} {v : V} {b c : Block} {m m' : Memory V} {e : Op V}
  {run : List (Op V × Memory V)}

/-- The words of the blocks that meet `P` are as they were. -/
def SameIn (w : Nat) (m : Memory V) (f : Nat → V) (P : Block → Prop) : Prop :=
  ∀ b ∈ m.blocks, P b → ∀ a, b.Holds w a → f a = m.word a

/-- What a program may rely on: a new block lies apart from those it has, a block that it has keeps
its words whatever happens to other blocks, and what is stored is there. -/
inductive Step (w : Nat) : Memory V → Op V → Memory V → Prop
  | malloc {m : Memory V} {b : Block} {f : Nat → V} (hapart : ∀ c ∈ m.blocks, Apart b c)
      (hsame : SameIn w m f fun _ => True) : Step w m (.malloc b.size) ⟨b :: m.blocks, f⟩
  | refused {m : Memory V} {n : Nat} {f : Nat → V} (hsame : SameIn w m f fun _ => True) :
      Step w m (.malloc n) ⟨m.blocks, f⟩
  | free {m : Memory V} {b : Block} {f : Nat → V} (hb : b ∈ m.blocks)
      (hsame : SameIn w m f fun c => c.base ≠ b.base) :
      Step w m (.free b.base) ⟨m.blocks.filter (·.base ≠ b.base), f⟩
  | store {m : Memory V} {b : Block} {a : Nat} {v : V} {f : Nat → V} (hb : b ∈ m.blocks)
      (ha : b.Holds w a) (hself : f a = v) (hothers : ∀ x, Beside w a x → f x = m.word x) :
      Step w m (.store a v) ⟨m.blocks, f⟩

theorem Block.Holds.lt (h : b.Holds w a) (hw : 0 < w) : a < b.base + b.size := by
  have hend := h.2
  omega

theorem Beside.ne (h : Beside w a x) (hw : 0 < w) : a ≠ x := by
  rcases h with h | h <;> omega

theorem Apart.symm (h : Apart b c) : Apart c b := ⟨h.1.symm, h.2.symm⟩

theorem Step.apart (hs : Step w m e m') (h : m.blocks.Pairwise Apart) :
    m'.blocks.Pairwise Apart := by
  cases hs with
  | malloc hapart => exact List.pairwise_cons.mpr ⟨hapart, h⟩
  | refused => exact h
  | free => exact h.filter _
  | store => exact h

/-- The blocks lie apart in every state of a run. -/
theorem apart_along (h : m.blocks.Pairwise Apart) (hr : Along (Step w) m run) :
    ∀ x ∈ run, x.2.blocks.Pairwise Apart := by
  have hall := hr.invariant (I := fun m => m.blocks.Pairwise Apart) (fun _ _ _ h hs => hs.apart h) h
  exact along_states.mp (hall.mono fun _ _ _ h => h.2)

/-- A block that is not freed stays, and with it a word that no store is made over. -/
theorem Step.keeps (hs : Step w m e m') (hb : b ∈ m.blocks) (ha : b.Holds w a)
    (hfree : e ≠ .free b.base) (hstore : ∀ x v, e = .store x v → Beside w x a) :
    b ∈ m'.blocks ∧ m'.word a = m.word a := by
  cases hs with
  | malloc _ hsame => exact ⟨List.mem_cons_of_mem _ hb, hsame b hb trivial a ha⟩
  | refused hsame => exact ⟨hb, hsame b hb trivial a ha⟩
  | @free c f hc hsame =>
    have hne : b.base ≠ c.base := by
      intro heq
      exact hfree (by rw [heq])
    exact ⟨List.mem_filter.mpr ⟨hb, by simpa using hne⟩, hsame b hb hne a ha⟩
  | @store c x v f hc hx hself hothers => exact ⟨hb, hothers a (hstore x v rfl)⟩

/-- A store into the block `b`. -/
def Stores (w : Nat) (b : Block) (a : Nat) (v : V) (m : Memory V) (e : Op V) (_ : Memory V) :
    Prop :=
  b ∈ m.blocks ∧ b.Holds w a ∧ e = .store a v

/-- Not a free of the block, nor a store over the word at `a`. -/
def Spares (w : Nat) (b : Block) (a : Nat) (_ : Memory V) (e : Op V) (_ : Memory V) : Prop :=
  e ≠ .free b.base ∧ ∀ x v, e = .store x v → Beside w x a

/-- What was stored last is there, until the block is freed. -/
theorem last_store (hr : Along (Step w) m run) (hs : Since (Stores w b a v) (Spares w b a) m run) :
    b ∈ (lastState m run).blocks ∧ (lastState m run).word a = v := by
  let I (run : List (Op V × Memory V)) : Prop := Since (Stores w b a v) (Spares w b a) m run →
    b ∈ (lastState m run).blocks ∧ b.Holds w a ∧ (lastState m run).word a = v
  have hall : I run := by
    apply hr.history
    · intro h
      exact (not_since_nil h).elim
    · intro l e t ih hstep h
      rw [lastState_append]
      rcases since_concat.mp h with ⟨hb, ha, rfl⟩ | ⟨⟨hfree, hstore⟩, hold⟩
      · generalize hop : Op.store a v = op at hstep
        cases hstep with
        | store _ _ hself =>
          cases hop
          exact ⟨hb, ha, hself⟩
        | malloc => cases hop
        | refused => cases hop
        | free => cases hop
      · obtain ⟨hb, ha, hv⟩ := ih hold
        obtain ⟨hb', hword⟩ := hstep.keeps hb ha hfree hstore
        exact ⟨hb', ha, hword.trans hv⟩
  obtain ⟨hb, -, hv⟩ := hall hs
  exact ⟨hb, hv⟩

end Csc469.Blocks
