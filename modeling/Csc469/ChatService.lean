import Csc469.Simulation
import Mathlib.Data.Set.Card
import Mathlib.Logic.Function.Basic

/-! What a chat service is for, over any identifiers and names: who is there, under which name
and in which room, and which rooms there are. -/
namespace Csc469.ChatService

open Execution Simulation

/-- A member, and whether it has been silent since the last interval. -/
@[ext] structure Presence (Name : Type*) where
  name : Name
  room : Option Name
  quiet : Bool

/-- The members under their identifiers; the rooms under their names, each with whether it has
been empty for an interval. -/
@[ext] structure Service (Id Name : Type*) where
  member : Id → Option (Presence Name)
  idle : Name → Option Bool

structure Limits (Name : Type*) where
  members : Nat
  rooms : Nat
  perRoom : Nat
  Fits : Name → Prop

/-- What is asked of the service, with its answer. -/
inductive Action (Id Name : Type*) where
  | register (name : Name) (id : Option Id)
  | unknown (id : Id)
  | ask (id : Id)
  | speak (id : Id)
  | enter (id : Id) (room : Name) (done : Bool)
  | create (id : Id) (room : Name) (done : Bool)
  | leave (id : Id)
  | interval

variable {Id Name : Type*} {lim : Limits Name} {s t : Service Id Name} {id : Id}
  {act : Action Id Name}

namespace Presence

def heard (p : Presence Name) : Presence Name := { p with quiet := false }

/-- At the end of an interval a silent member goes. -/
def pass (p : Presence Name) : Option (Presence Name) :=
  if p.quiet then none else some { p with quiet := true }

end Presence

namespace Service

def present (s : Service Id Name) : Set Id := {id | (s.member id).isSome}

def rooms (s : Service Id Name) : Set Name := {room | (s.idle room).isSome}

def occupants (s : Service Id Name) (room : Name) : Set Id :=
  {id | ∃ p, s.member id = some p ∧ p.room = some room}

def setMember [DecidableEq Id] (s : Service Id Name) (id : Id) (p : Option (Presence Name)) :
    Service Id Name :=
  { s with member := Function.update s.member id p }

def setIdle [DecidableEq Name] (s : Service Id Name) (room : Name) (b : Bool) : Service Id Name :=
  { s with idle := Function.update s.idle room (some b) }

/-- The member with this identifier, if there is one, is not silent. -/
def hear [DecidableEq Id] (s : Service Id Name) (id : Id) : Service Id Name :=
  s.setMember id ((s.member id).map Presence.heard)

open Classical in
/-- The end of an interval: silent members go, and then rooms that have been empty for one. -/
noncomputable def pass (s : Service Id Name) : Service Id Name where
  member id := (s.member id).bind Presence.pass
  idle room := (s.idle room).bind fun idle => if idle then none else
    some (decide (∀ id p, s.member id = some p → p.quiet = false → p.room ≠ some room))

end Service

theorem member_pass : s.pass.member id = (s.member id).bind Presence.pass := rfl

open Classical in
theorem idle_pass {room : Name} : s.pass.idle room = (s.idle room).bind fun idle =>
    if idle then none else
      some (decide (∀ id p, s.member id = some p → p.quiet = false → p.room ≠ some room)) := rfl

variable [DecidableEq Id]

/-- What the service does. A refusal is for one of the reasons there are to refuse. -/
inductive Step [DecidableEq Name] (lim : Limits Name) :
    Service Id Name → Action Id Name → Service Id Name → Prop
  | registered {s : Service Id Name} {name : Name} {id : Id}
      (hfull : s.present.ncard < lim.members)
      (hname : ∀ i p, s.member i = some p → p.name ≠ name) (hid : s.member id = none) :
    Step lim s (.register name (some id)) (s.setMember id (some ⟨name, none, false⟩))
  | registerRefused {s : Service Id Name} {name : Name}
      (h : s.present.ncard = lim.members ∨ ∃ i p, s.member i = some p ∧ p.name = name) :
    Step lim s (.register name none) s
  | unknown {s : Service Id Name} {id : Id} (h : s.member id = none) : Step lim s (.unknown id) s
  | ask {s : Service Id Name} {id : Id} (h : (s.member id).isSome) :
    Step lim s (.ask id) (s.hear id)
  | speak {s : Service Id Name} {id : Id} : Step lim s (.speak id) (s.hear id)
  | entered {s : Service Id Name} {id : Id} {room : Name} {p : Presence Name}
      (hid : s.member id = some p) (hroom : room ∈ s.rooms)
      (hfull : (s.occupants room).ncard < lim.perRoom) (hne : p.room ≠ some room) :
    Step lim s (.enter id room true)
      ((s.setMember id (some ⟨p.name, some room, false⟩)).setIdle room false)
  | enterRefused {s : Service Id Name} {id : Id} {room : Name} {p : Presence Name}
      (hid : s.member id = some p)
      (h : room ∉ s.rooms ∨ (s.occupants room).ncard = lim.perRoom ∨ p.room = some room) :
    Step lim s (.enter id room false) (s.hear id)
  | created {s : Service Id Name} {id : Id} {room : Name} (hid : (s.member id).isSome)
      (hfits : lim.Fits room) (hfull : s.rooms.ncard < lim.rooms) (hnew : room ∉ s.rooms) :
    Step lim s (.create id room true) ((s.hear id).setIdle room false)
  | createRefused {s : Service Id Name} {id : Id} {room : Name} (hid : (s.member id).isSome)
      (h : ¬lim.Fits room ∨ s.rooms.ncard = lim.rooms ∨ room ∈ s.rooms) :
    Step lim s (.create id room false) (s.hear id)
  | left {s : Service Id Name} {id : Id} (hid : (s.member id).isSome) :
    Step lim s (.leave id) (s.setMember id none)
  | pass {s : Service Id Name} : Step lim s .interval s.pass

section Follow

/-- What one member can tell of itself from its own requests and their answers, and from the
intervals that end. -/
def follow (id : Id) : Action Id Name → Option (Presence Name) → Option (Presence Name)
  | .register name (some i), p => if i = id then some ⟨name, none, false⟩ else p
  | .ask i, p => if i = id then p.map Presence.heard else p
  | .speak i, p => if i = id then p.map Presence.heard else p
  | .enter i room true, p =>
    if i = id then p.map fun p => ⟨p.name, some room, false⟩ else p
  | .enter i _ false, p => if i = id then p.map Presence.heard else p
  | .create i _ _, p => if i = id then p.map Presence.heard else p
  | .leave i, p => if i = id then none else p
  | .interval, p => p.bind Presence.pass
  | _, p => p

theorem member_setMember {q : Option (Presence Name)} (i : Id) :
    (s.setMember i q).member id = if i = id then q else s.member id := by
  simp only [Service.setMember, Function.update_apply, eq_comm]

theorem member_hear (i : Id) : (s.hear i).member id =
    if i = id then (s.member id).map Presence.heard else s.member id := by
  rw [Service.hear, member_setMember]
  split
  · next h => rw [h]
  · rfl

/-- Nobody is there to be heard of. -/
theorem hear_of_none (h : s.member id = none) : s.hear id = s := by
  refine Service.ext (funext fun i => ?_) rfl
  rw [Service.hear, h, member_setMember]
  split
  · next he => rw [← he, h, Option.map_none]
  · rfl

theorem setMember_hear {q : Option (Presence Name)} :
    (s.hear id).setMember id q = s.setMember id q := by
  simp only [Service.hear, Service.setMember, Function.update_idem]

omit [DecidableEq Id] in
theorem idle_setIdle [DecidableEq Name] {room : Name} {b : Bool} (n : Name) :
    (s.setIdle room b).idle n = if room = n then some b else s.idle n := by
  simp only [Service.setIdle, Function.update_apply, eq_comm]

variable [DecidableEq Name]

/-- No other member has a say in it. -/
theorem step_follow (h : Step lim s act t) : t.member id = follow id act (s.member id) := by
  cases h with
  | registered => exact member_setMember _
  | registerRefused => rfl
  | unknown => rfl
  | ask => exact member_hear _
  | speak => exact member_hear _
  | entered hid =>
    rw [Service.setIdle, member_setMember, follow]
    split
    · next he =>
      subst he
      rw [hid]
      rfl
    · rfl
  | enterRefused => exact member_hear _
  | created => exact member_hear _
  | createRefused => exact member_hear _
  | left => exact member_setMember _
  | pass => rfl

theorem run_follow {run : List (Action Id Name × Service Id Name)} (h : Along (Step lim) s run) :
    (lastState s run).member id =
      (run.map Prod.fst).foldl (fun p a => follow id a p) (s.member id) := by
  induction run generalizing s with
  | nil => rfl
  | cons x run ih =>
    rw [lastState, ih h.2, step_follow h.1]
    rfl

end Follow
end Csc469.ChatService
