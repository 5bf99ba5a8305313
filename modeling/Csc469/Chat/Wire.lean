import Mathlib.Algebra.Group.Nat.Defs
import Mathlib.Data.List.TakeWhile

/-! Bytes, C strings and control messages: what the chat client and its server exchange. -/
namespace Csc469.Chat

abbrev Bytes := List UInt8

def maxMemberNameLen : Nat := 24
def maxRoomNameLen : Nat := 24
def maxNumOfRooms : Nat := 40
def maxNumOfMembersPerRoom : Nat := 30
def maxNumOfMembers : Nat := maxNumOfRooms * maxNumOfMembersPerRoom
def maxMsgLen : Nat := 2048

def registerRequest : UInt16 := 1
def registerSucc : UInt16 := 2
def registerFail : UInt16 := 3
def roomListRequest : UInt16 := 4
def roomListSucc : UInt16 := 5
def roomListFail : UInt16 := 6
def memberListRequest : UInt16 := 7
def memberListSucc : UInt16 := 8
def memberListFail : UInt16 := 9
def switchRoomRequest : UInt16 := 10
def switchRoomSucc : UInt16 := 11
def switchRoomFail : UInt16 := 12
def createRoomRequest : UInt16 := 13
def createRoomSucc : UInt16 := 14
def createRoomFail : UInt16 := 15
def memberKeepAlive : UInt16 := 16
def quitRequest : UInt16 := 17

variable {b data : Bytes} {n i : Nat} {x : UInt16}

/-- The text of a string literal. -/
def text (s : String) : Bytes := s.toList.map fun c => UInt8.ofNat c.toNat

/-- The C string at the start of some memory. -/
def cstr (b : Bytes) : Bytes := b.takeWhile (· ≠ 0)

/-- `strncpy` into an array of `n` chars: cut at `n`, or padded with zeros. -/
def strncpy (n : Nat) (src : Bytes) : Vector UInt8 n :=
  ⟨((cstr src ++ List.replicate n 0).take n).toArray, by simp⟩

/-- Two bytes read as an integer, on a little-endian host. -/
def load16 (b : Bytes) (i : Nat) : UInt16 :=
  UInt16.ofNat ((b.getD i 0).toNat + 256 * (b.getD (i + 1) 0).toNat)

def store16 (x : UInt16) : Bytes := [UInt8.ofNat (x.toNat % 256), UInt8.ofNat (x.toNat / 256)]

/-- `htons`, and `ntohs`: the two bytes change places. -/
def htons (x : UInt16) : UInt16 := UInt16.ofNat (x.toNat % 256 * 256 + x.toNat / 256)

/-- `sizeof(struct control_msghdr)`. -/
def cmhSize : Nat := 8

/-- A header as it is sent, all fields in network order. -/
def controlMsghdr (type id : UInt16) (len : Nat) : Bytes :=
  store16 (htons type) ++ store16 (htons id) ++ store16 (htons (UInt16.ofNat len)) ++ store16 0

/-- The fields of a received header, after `ntoh_control_header`. -/
def msgType (msg : Bytes) : UInt16 := htons (load16 msg 0)

def memberId (msg : Bytes) : UInt16 := htons (load16 msg 2)

/-- The id that a chat message carries. -/
def senderId (msg : Bytes) : UInt16 := htons (load16 msg 0)

/-- The bytes behind the header. The rest of the buffer was zeroed before the read. -/
def msgdata (msg : Bytes) : Bytes := msg.drop cmhSize

/-- A message of the server to a client: `send_control_msg_reply` sends no terminator. -/
structure Reply where
  type : UInt16
  id : UInt16
  data : Bytes
  deriving DecidableEq

def Reply.wire (r : Reply) : Bytes :=
  controlMsghdr r.type r.id (cmhSize + (cstr r.data).length) ++ cstr r.data

theorem htons_toNat : (htons x).toNat = x.toNat % 256 * 256 + x.toNat / 256 := by
  have := x.toNat_lt
  rw [htons, UInt16.toNat_ofNat', Nat.mod_eq_of_lt]
  omega

theorem htons_htons : htons (htons x) = x := by
  apply UInt16.toNat_inj.mp
  have := x.toNat_lt
  rw [htons_toNat, htons_toNat]
  omega

theorem load16_store16 (pre post : Bytes) : load16 (pre ++ (store16 x ++ post)) pre.length = x := by
  apply UInt16.toNat_inj.mp
  have := x.toNat_lt
  simp [load16, store16]
  omega

/-- A string without a zero byte goes on into what is behind it. -/
theorem cstr_append (h : 0 ∉ b) : cstr (b ++ data) = b ++ cstr data := by
  rw [cstr, List.takeWhile_append_of_pos]
  · rfl
  · intro y hy
    simp only [decide_eq_true_eq]
    rintro rfl
    exact h hy

theorem cstr_append_zero (h : 0 ∉ b) (rest : Bytes) : cstr (b ++ 0 :: rest) = b := by
  rw [cstr_append h]
  exact List.append_nil b

theorem cstr_append_of_mem (h : 0 ∈ b) : cstr (b ++ data) = cstr b := by
  obtain ⟨l, r, rfl, hl⟩ := List.eq_append_cons_of_mem h
  rw [List.append_assoc, List.cons_append, cstr_append_zero hl, cstr_append_zero hl]

theorem cstr_self (h : 0 ∉ b) : cstr b = b := by
  rw [← List.append_nil b, cstr_append h]
  rfl

theorem zero_notMem_cstr : 0 ∉ cstr b := by
  intro h
  simpa using List.mem_takeWhile_imp h

theorem cstr_take_zeros : cstr ((data ++ List.replicate n 0).take i) = cstr (data.take i) := by
  induction data generalizing i with
  | nil =>
    rw [List.nil_append, List.take_nil, List.take_replicate]
    cases min i n <;> rfl
  | cons y data ih =>
    cases i with
    | zero => rfl
    | succ i =>
      simp only [List.cons_append, List.take_succ_cons, cstr, List.takeWhile_cons]
      split
      · exact congrArg _ ih
      · rfl

/-- Reading a copied string back cuts it at the size of the array. -/
theorem cstr_strncpy : cstr (strncpy n data).toList = (cstr data).take n := by
  have : cstr ((cstr data).take n) = (cstr data).take n :=
    cstr_self fun h => zero_notMem_cstr (List.mem_of_mem_take h)
  simpa [strncpy, Vector.toList, cstr_take_zeros] using this

/-- A string that fits is copied whole, with zeros behind it. -/
theorem strncpy_toList (h : (cstr data).length ≤ n) :
    (strncpy n data).toList = cstr data ++ List.replicate (n - (cstr data).length) 0 := by
  simp [strncpy, Vector.toList, List.take_append, List.take_of_length_le h]

section Headers
variable {type id : UInt16} {len : Nat} {rest : Bytes}

theorem msgType_controlMsghdr : msgType (controlMsghdr type id len ++ rest) = type := by
  have h := load16_store16 (x := htons type) []
    (store16 (htons id) ++ (store16 (htons (UInt16.ofNat len)) ++ (store16 0 ++ rest)))
  simp only [List.nil_append, List.length_nil] at h
  simp only [msgType, controlMsghdr, List.append_assoc, h, htons_htons]

theorem memberId_controlMsghdr : memberId (controlMsghdr type id len ++ rest) = id := by
  have h := load16_store16 (x := htons id) (store16 (htons type))
    (store16 (htons (UInt16.ofNat len)) ++ (store16 0 ++ rest))
  simp only [show (store16 (htons type)).length = 2 from rfl] at h
  simp only [memberId, controlMsghdr, List.append_assoc, h, htons_htons]

theorem msgdata_controlMsghdr : msgdata (controlMsghdr type id len ++ rest) = rest := rfl

end Headers
end Csc469.Chat
