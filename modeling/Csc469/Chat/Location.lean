import Csc469.Chat.ChatText
import Csc469.Decimal
import Csc469.Tokens

/-! The location of the chat server: announced in a file, and fetched over HTTP. -/
namespace Csc469.Chat

open Execution Decimal Tokens

def maxHostNameLen : Nat := 80

/-- `announce_server_ready`: what it writes into the file. -/
def announcement (localHostName : Bytes) (serverTcpPort serverUdpPort : UInt16) : Bytes :=
  (localHostName ++ 32 :: decimal serverTcpPort.toNat ++ 32 :: decimal serverUdpPort.toNat).take
    (maxHostNameLen + 15 - 1)

/-- `build_req` -/
def buildReq : Bytes :=
  text "GET /~csc469h/winter/chatserver.txt HTTP/1.0\r\n" ++ text "\r\n"

/-- `sscanf` with `"%256[^\n]"`: what is before the newline, at most 256 characters of it. -/
def scanLine (s : Bytes) : Option Bytes :=
  let line := ((cstr s).takeWhile fun c => c ≠ newline).take 256
  if line = [] then none else some line

/-- `skip_http_headers`. `overrun` is what the terminator does that is written behind the 256
characters of `line`. -/
def skipHttpHeaders (overrun : Call Unit) : Nat → Bytes → Call Bytes
  | 0, _ => .error .loops
  | k + 1, curpos =>
    if 0 ∉ curpos then .error .fault
    else
      match scanLine curpos with
      | none => .ok curpos
      | some line => do
        if 256 ≤ line.length then overrun
        if line.length = 1 then .ok (curpos.drop (line.length + 1))
        else skipHttpHeaders overrun k (curpos.drop (line.length + 1))

/-- `sscanf` with `"%*s %d"`, for a status that fits into an `int`. -/
def scanStatus (s : Bytes) : Option Int :=
  let s := (cstr s).dropWhile isSpace
  if s = [] then none else scanInt (s.dropWhile fun c => !isSpace c)

/-- `strtok` on a string: the token cannot be used when there is none. -/
def nextToken (s : Bytes) : Call (Bytes × Bytes) :=
  match strtok 32 s with
  | some x => .ok x
  | none => .error .fault

/-- What `retrieve_chatserver_info` ends with: it exits when the status is not 200. -/
inductive Retrieved where
  | info (chatserverName : Vector UInt8 maxHostNameLen) (tcpPort udpPort : UInt16)
  | exited (status : Int)
  deriving DecidableEq

/-- `retrieve_chatserver_info`, when `read` gets the whole reply. -/
def retrieveChatserverInfo (overrun : Call Unit) (reply : Bytes) : Call Retrieved :=
  -- the request is still in the buffer when the reply is read over it
  let buf := received (buildReq ++ List.replicate (maxMsgLen - buildReq.length) 0) reply
  match scanStatus buf with
  | none => .error .fault
  | some code =>
    if code = 200 then do
      let body ← skipHttpHeaders overrun (buf.length + 1) buf
      let (name, rest) ← nextToken (cstr body)
      let (tcp, rest) ← nextToken rest
      let (udp, _) ← nextToken rest
      .ok (.info (strncpy maxHostNameLen name) (UInt16.ofInt (strtol tcp))
        (UInt16.ofInt (strtol udp)))
    else .ok (.exited code)

/-- The header of a reply with status 200: the status line and the other lines. -/
structure HttpHeader where
  version : Bytes
  reason : Bytes
  fields : List Bytes
  word : version ≠ [] ∧ ∀ c ∈ version, isSpace c = false
  phrase : reason = [] ∨ ∃ rest, reason = 32 :: rest
  chars : ∀ line ∈ (version ++ text " 200" ++ reason) :: fields,
    line ≠ [] ∧ 0 ∉ line ∧ newline ∉ line

def HttpHeader.lines (r : HttpHeader) : List Bytes :=
  (r.version ++ text " 200" ++ r.reason) :: r.fields

/-- Lines that each end with `"\r\n"`. -/
def crlfLines (lines : List Bytes) : Bytes := lines.flatMap fun line => line ++ [13, newline]

/-- The reply with this header and a body. -/
def HttpHeader.reply (r : HttpHeader) (body : Bytes) : Bytes :=
  crlfLines r.lines ++ ([13, newline] ++ body)

/-- The reply with what the server has announced. -/
def HttpHeader.announced (r : HttpHeader) (host : Bytes) (tcp udp : UInt16) : Bytes :=
  r.reply (announcement host tcp udp)

/-- The client gets what the server has announced, whatever lies behind `line`. -/
def RoundTrip (r : HttpHeader) (host : Bytes) (tcp udp : UInt16) : Prop :=
  ∀ overrun, ∃ name,
    retrieveChatserverInfo overrun (r.announced host tcp udp) = .ok (.info name tcp udp) ∧
      cstr name.toList = host

variable {r : HttpHeader} {host line rest body reply : Bytes} {lines : List Bytes}
  {tcp udp : UInt16} {overrun : Call Unit} {k : Nat}

section Headers

theorem scanLine_line (h0 : 0 ∉ line) (hnl : newline ∉ line) (hne : line ≠ []) :
    scanLine (line ++ newline :: rest) = some (line.take 256) := by
  have hall : ∀ c ∈ line, decide (c ≠ 0) = true := fun c hc => by
    rw [decide_eq_true_eq]
    rintro rfl
    exact h0 hc
  have hall' : ∀ c ∈ line, decide (c ≠ newline) = true := fun c hc => by
    rw [decide_eq_true_eq]
    rintro rfl
    exact hnl hc
  have hstr : cstr (line ++ newline :: rest) = line ++ newline :: cstr rest := by
    rw [cstr, List.takeWhile_append_of_pos hall, List.takeWhile_cons_of_pos (by decide)]
    rfl
  have htake : (line ++ newline :: cstr rest).takeWhile (fun c => c ≠ newline) = line := by
    rw [List.takeWhile_append_of_pos hall', List.takeWhile_cons_of_neg (by simp), List.append_nil]
  rw [scanLine, hstr, htake, if_neg (by simpa using hne)]

/-- A line that fits into `line` is skipped, and the empty one ends the header. -/
theorem skipHttpHeaders_line (h0 : 0 ∉ line) (hnl : newline ∉ line) (hne : line ≠ [])
    (hlen : line.length < 256) (hrest : 0 ∈ rest) :
    skipHttpHeaders overrun (k + 1) (line ++ newline :: rest) =
      if line.length = 1 then .ok rest else skipHttpHeaders overrun k rest := by
  have hmem : 0 ∈ line ++ newline :: rest := by simp [hrest]
  have hdrop : (line ++ newline :: rest).drop (line.length + 1) = rest := by
    rw [List.drop_length_add_append]
    rfl
  rw [skipHttpHeaders, if_neg (not_not.mpr hmem), scanLine_line h0 hnl hne,
    List.take_of_length_le hlen.le]
  simp only [hdrop, if_neg (Nat.not_le.mpr hlen)]

/-- The terminator of a longer one is written behind it. -/
theorem skipHttpHeaders_long (h0 : 0 ∉ line) (hnl : newline ∉ line) (hlen : 256 ≤ line.length)
    (hrest : 0 ∈ rest) :
    skipHttpHeaders (.error .fault) (k + 1) (line ++ newline :: rest) = .error .fault := by
  have hmem : 0 ∈ line ++ newline :: rest := by simp [hrest]
  have hne : line ≠ [] := by
    rintro rfl
    cases hlen
  have htake : (line.take 256).length = 256 := by
    rw [List.length_take]
    omega
  rw [skipHttpHeaders, if_neg (not_not.mpr hmem), scanLine_line h0 hnl hne]
  simp only [htake, Nat.le_refl, if_true]
  rfl

/-- A line with its carriage return. -/
theorem carriageReturn_chars (h : line ≠ [] ∧ 0 ∉ line ∧ newline ∉ line) :
    0 ∉ line ++ [13] ∧ newline ∉ line ++ [13] ∧ (line ++ [13]).length = line.length + 1 ∧
      (line ++ [13]).length ≠ 1 := by
  obtain ⟨hne, h0, hnl⟩ := h
  have hpos := List.length_pos_iff.mpr hne
  have hmem : ∀ c : UInt8, c ∉ line → c ≠ 13 → c ∉ line ++ [13] := fun c hc hne hm => by
    rcases List.mem_append.mp hm with hm | hm
    · exact hc hm
    · exact hne (List.mem_singleton.mp hm)
  rw [List.length_append, List.length_singleton]
  exact ⟨hmem 0 h0 (by decide), hmem newline hnl (by decide), rfl, by omega⟩

theorem crlfLines_cons : crlfLines (line :: lines) ++ rest =
    (line ++ [13]) ++ newline :: (crlfLines lines ++ rest) := by
  simp [crlfLines]

/-- A header of lines that fit is skipped, up to the body. -/
theorem skipHttpHeaders_lines (hchars : ∀ line ∈ lines, line ≠ [] ∧ 0 ∉ line ∧ newline ∉ line)
    (hlen : ∀ line ∈ lines, line.length < 255) (hbody : 0 ∈ body) (hk : lines.length < k) :
    skipHttpHeaders overrun k (crlfLines lines ++ ([13, newline] ++ body)) = .ok body := by
  induction lines generalizing k with
  | nil =>
    obtain ⟨k, rfl⟩ := Nat.exists_eq_add_one.mpr hk
    have h0 : (0 : UInt8) ∉ ([13] : Bytes) := by decide
    exact skipHttpHeaders_line h0 (by decide) (by decide) (by decide) hbody
  | cons line lines ih =>
    obtain ⟨k, rfl⟩ := Nat.exists_eq_add_one.mpr (Nat.zero_lt_of_lt hk)
    rw [List.forall_mem_cons] at hchars hlen
    obtain ⟨h0, hnl, hlength, hne⟩ := carriageReturn_chars hchars.1
    have hfits : (line ++ [13]).length < 256 := by
      have := hlen.1
      omega
    rw [crlfLines_cons, skipHttpHeaders_line h0 hnl (by simp) hfits (by simp [hbody]), if_neg hne,
      ih hchars.2 hlen.2 (Nat.lt_of_succ_lt_succ hk)]

/-- A header with a line that does not fit is not. -/
theorem skipHttpHeaders_overrun (hchars : ∀ line ∈ lines, line ≠ [] ∧ 0 ∉ line ∧ newline ∉ line)
    (hlong : ∃ line ∈ lines, 255 ≤ line.length) (hbody : 0 ∈ body) (hk : lines.length < k) :
    skipHttpHeaders (.error .fault) k (crlfLines lines ++ ([13, newline] ++ body)) =
      .error .fault := by
  induction lines generalizing k with
  | nil =>
    obtain ⟨_, h, -⟩ := hlong
    cases h
  | cons line lines ih =>
    obtain ⟨k, rfl⟩ := Nat.exists_eq_add_one.mpr (Nat.zero_lt_of_lt hk)
    rw [List.forall_mem_cons] at hchars
    obtain ⟨h0, hnl, hlength, hne⟩ := carriageReturn_chars hchars.1
    have hrest : 0 ∈ crlfLines lines ++ ([13, newline] ++ body) := by simp [hbody]
    rw [crlfLines_cons]
    by_cases hlen : 255 ≤ line.length
    · exact skipHttpHeaders_long h0 hnl (by omega) hrest
    · rw [skipHttpHeaders_line h0 hnl (by simp) (by omega) hrest, if_neg hne]
      refine ih hchars.2 ?_ (Nat.lt_of_succ_lt_succ hk)
      obtain ⟨l, hl, hle⟩ := hlong
      rcases List.mem_cons.mp hl with rfl | hl
      · exact absurd hle hlen
      · exact ⟨l, hl, hle⟩

end Headers

section Reply

/-- What is behind a short reply in the buffer. -/
def requestRest (reply : Bytes) : Bytes := buildReq.drop reply.length

/-- The digits right behind a short reply: those of the protocol version in the request. -/
def strayDigits (reply : Bytes) : Bytes :=
  ((requestRest reply).takeWhile fun c => c ≠ 32).takeWhile isDigit

theorem received_reply (hlen : reply.length ≤ maxMsgLen - 1) : ∃ zeros,
    received (buildReq ++ List.replicate (maxMsgLen - buildReq.length) 0) reply =
      reply ++ (requestRest reply ++ 0 :: zeros) := by
  have hreq : buildReq.length = 48 := by decide
  have hmax : maxMsgLen = 2048 := rfl
  obtain ⟨k, hk⟩ : ∃ k, 2000 - (reply.length - 48) = k + 1 :=
    Nat.exists_eq_add_one.mpr (by omega)
  refine ⟨List.replicate k 0, ?_⟩
  rw [received, List.take_of_length_le (by omega), List.drop_append, List.drop_replicate, hreq,
    hmax, show 2048 - 48 = 2000 from rfl, hk, List.replicate_succ, requestRest]

theorem zero_notMem_requestRest : 0 ∉ requestRest reply := fun h =>
  absurd (List.mem_of_mem_drop h) (by decide)

/-- The request has digits at two places where a reply can end. -/
theorem strayDigits_eq (hlen : 14 ≤ reply.length) : strayDigits reply =
    if reply.length = 41 then text "1" else if reply.length = 43 then text "0" else [] := by
  have hshort : ∀ n < 48, 14 ≤ n → ((buildReq.drop n).takeWhile fun c => c ≠ 32).takeWhile isDigit =
      if n = 41 then text "1" else if n = 43 then text "0" else [] := by decide
  by_cases hn : reply.length < 48
  · exact hshort _ hn hlen
  · have hreq : buildReq.length = 48 := by decide
    rw [strayDigits, requestRest, List.drop_of_length_le (by omega), if_neg (by omega),
      if_neg (by omega)]
    rfl

/-- The status line says 200. -/
theorem scanStatus_reply (h0 : 0 ∉ r.reply body) :
    scanStatus (r.reply body ++ rest) = some 200 := by
  obtain ⟨c, tail, htail, hdigit⟩ : ∃ c tail, r.reply body =
      r.version ++ (text " 200" ++ c :: tail) ∧ isDigit c = false := by
    have hreply : r.reply body = r.version ++ (text " 200" ++ (r.reason ++ 13 :: newline ::
        (crlfLines r.fields ++ ([13, newline] ++ body)))) := by
      simp [HttpHeader.reply, HttpHeader.lines, crlfLines]
    rcases r.phrase with h | ⟨phrase, h⟩
    · exact ⟨13, _, by rw [hreply, h]; rfl, by decide⟩
    · exact ⟨32, _, by rw [hreply, h]; rfl, by decide⟩
  obtain ⟨v, version, hv⟩ := List.exists_cons_of_ne_nil r.word.1
  have hstr : cstr (r.reply body ++ rest) =
      r.version ++ (text " 200" ++ c :: (tail ++ cstr rest)) := by
    rw [cstr_append h0, htail]
    simp
  have hfirst : (cstr (r.reply body ++ rest)).dropWhile isSpace = cstr (r.reply body ++ rest) := by
    rw [hstr, hv, List.cons_append,
      List.dropWhile_cons_of_neg (by simp [r.word.2 v (by simp [hv])])]
  have hword : (cstr (r.reply body ++ rest)).dropWhile (fun c => !isSpace c) =
      text " 200" ++ c :: (tail ++ cstr rest) := by
    rw [hstr, List.dropWhile_append_of_pos fun c hc => by simp [r.word.2 c hc]]
    rfl
  have hscan : scanInt (text " 200" ++ c :: (tail ++ cstr rest)) = some 200 := by
    have htext : text " 200" = 32 :: decimal 200 := by decide
    rw [htext, List.cons_append, scanInt_blank (by decide), scanInt_decimal,
      List.takeWhile_cons_of_neg (by simp [hdigit]), List.append_nil, digitsValue_decimal]
    rfl
  rw [scanStatus]
  simp only [hfirst, hword, hscan]
  rw [if_neg (by rw [hstr, hv]; simp)]

end Reply

section Body

/-- A host name that fits, without a space in it. -/
structure HostName (host : Bytes) : Prop where
  ne_nil : host ≠ []
  short : host.length < maxHostNameLen
  space : 32 ∉ host
  zero : 0 ∉ host

theorem space_notMem_decimal {n : Nat} : 32 ∉ decimal n := fun h =>
  absurd (isDigit_of_mem_decimal h) (by decide)

theorem zero_notMem_decimal {n : Nat} : 0 ∉ decimal n := fun h =>
  absurd (isDigit_of_mem_decimal h) (by decide)

theorem length_decimal (tcp : UInt16) : (decimal tcp.toNat).length ≤ 5 := by
  have hlt := tcp.toNat_lt
  rw [decimal, List.length_map, Nat.length_toDigits_le_iff (by decide) (by decide)]
  omega

/-- The announcement is not cut off. -/
theorem announcement_eq (h : HostName host) : announcement host tcp udp =
    host ++ 32 :: (decimal tcp.toNat ++ 32 :: decimal udp.toNat) := by
  have hshort := h.short
  have htcp := length_decimal tcp
  have hudp := length_decimal udp
  rw [announcement, List.take_of_length_le]
  · simp
  · simp only [List.length_append, List.length_cons, maxHostNameLen] at hshort ⊢
    omega

theorem ofInt_toNat {n : Nat} : (UInt16.ofInt (n : Int)).toNat = n % 65536 := by
  rw [UInt16.ofInt, UInt16.toNat_ofNat']
  omega

theorem strtol_decimal (udp : UInt16) (digits : Bytes)
    (h : digitsValue (decimal udp.toNat ++ digits.takeWhile isDigit) < 2 ^ 63) :
    strtol (decimal udp.toNat ++ digits) =
      digitsValue (decimal udp.toNat ++ digits.takeWhile isDigit) :=
  strtol_of_lt scanInt_decimal h

theorem strtol_tcp : UInt16.ofInt (strtol (decimal tcp.toNat)) = tcp := by
  have hval : digitsValue (decimal tcp.toNat ++ ([] : Bytes).takeWhile isDigit) = tcp.toNat := by
    rw [List.takeWhile_nil, List.append_nil, digitsValue_decimal]
  have hlt := tcp.toNat_lt
  have hread := strtol_decimal tcp [] (by rw [hval]; omega)
  rw [hval, List.append_nil] at hread
  rw [hread, ← UInt16.toNat_inj, ofInt_toNat]
  omega

/-- The second port, with the digits behind it, is read as it was written. -/
theorem strtol_udp_iff (hlen : 14 ≤ reply.length) :
    UInt16.ofInt (strtol (decimal udp.toNat ++ (requestRest reply).takeWhile fun c => c ≠ 32)) =
        udp ↔
      (reply.length = 41 → udp = 29127) ∧ (reply.length = 43 → udp = 0) := by
  have hlt := udp.toNat_lt
  have hone : digitsValue (decimal udp.toNat ++ text "1") = 10 * udp.toNat + 1 := by
    rw [show text "1" = [49] from rfl, digitsValue_concat, digitsValue_decimal]
    rfl
  have hzero : digitsValue (decimal udp.toNat ++ text "0") = 10 * udp.toNat := by
    rw [show text "0" = [48] from rfl, digitsValue_concat, digitsValue_decimal]
    rfl
  have hnone : digitsValue (decimal udp.toNat ++ []) = udp.toNat := by
    rw [List.append_nil, digitsValue_decimal]
  have hread : ∀ n, digitsValue (decimal udp.toNat ++ strayDigits reply) = n → n < 2 ^ 63 →
      (UInt16.ofInt (strtol (decimal udp.toNat ++
        (requestRest reply).takeWhile fun c => c ≠ 32)) = udp ↔ n % 65536 = udp.toNat) := by
    rintro n rfl hn
    rw [strtol_decimal _ _ hn, ← UInt16.toNat_inj, ofInt_toNat]
    rfl
  have hstray := strayDigits_eq hlen
  simp only [← UInt16.toNat_inj]
  split_ifs at hstray with h41 h43
  · rw [UInt16.toNat_inj, hread _ (hstray ▸ hone) (by omega)]
    simp only [h41, UInt16.reduceToNat, true_implies, Nat.reduceEqDiff, false_implies, and_true]
    omega
  · rw [UInt16.toNat_inj, hread _ (hstray ▸ hzero) (by omega)]
    simp only [h43, UInt16.reduceToNat, true_implies, Nat.reduceEqDiff, false_implies, true_and]
    omega
  · rw [UInt16.toNat_inj, hread _ (hstray ▸ hnone) (by omega)]
    simp only [h41, h43, false_implies, and_self, iff_true]
    omega

end Body

section Retrieve

theorem HttpHeader.lines_chars (r : HttpHeader) :
    ∀ line ∈ r.lines, line ≠ [] ∧ 0 ∉ line ∧ newline ∉ line := r.chars

theorem zero_notMem_announcement (h : HostName host) : 0 ∉ announcement host tcp udp := by
  rw [announcement_eq h]
  have hd : ∀ n, 0 ∉ decimal n := fun n => zero_notMem_decimal
  simp [h.zero, hd]

theorem zero_notMem_announced (h : HostName host) : 0 ∉ r.announced host tcp udp := by
  have hbody : 0 ∉ announcement host tcp udp := zero_notMem_announcement h
  have hlines : ∀ lines : List Bytes, (∀ line ∈ lines, 0 ∉ line) → 0 ∉ crlfLines lines := by
    intro lines hl hmem
    obtain ⟨line, hline, hmem⟩ := List.mem_flatMap.mp hmem
    simp [hl line hline, newline] at hmem
  intro hmem
  rcases List.mem_append.mp hmem with hmem | hmem
  · exact hlines _ (fun line hline => (r.lines_chars line hline).2.1) hmem
  · simp [hbody, newline] at hmem

theorem length_announced (h : HostName host) : 14 ≤ (r.announced host tcp udp).length := by
  have hv := List.length_pos_iff.mpr r.word.1
  have hh := List.length_pos_iff.mpr h.ne_nil
  have hd : ∀ n, 0 < (decimal n).length := fun n => List.length_pos_iff.mpr decimal_ne_nil
  have htcp := hd tcp.toNat
  have hudp := hd udp.toNat
  have hspace : (text " 200").length = 4 := rfl
  rw [HttpHeader.announced, announcement_eq h]
  simp only [HttpHeader.reply, HttpHeader.lines, crlfLines, List.flatMap_cons, List.length_append,
    List.length_cons, List.length_nil, hspace]
  omega

/-- Three tokens are found in the body. -/
theorem tokens_of_body (tcp udp : UInt16) (reply : Bytes) (h : HostName host) : ∃ rest rest' rest'',
    nextToken (announcement host tcp udp ++ requestRest reply) = .ok (host, rest) ∧
      nextToken rest = .ok (decimal tcp.toNat, rest') ∧
      nextToken rest' = .ok (decimal udp.toNat ++
        (requestRest reply).takeWhile fun c => c ≠ 32, rest'') := by
  have hlast := strtok_longer (requestRest reply)
    (space_notMem_decimal (n := udp.toNat)) decimal_ne_nil
  obtain ⟨⟨token, rest''⟩, htoken, heq⟩ := Option.map_eq_some_iff.mp hlast
  refine ⟨decimal tcp.toNat ++ 32 :: (decimal udp.toNat ++ requestRest reply),
    decimal udp.toNat ++ requestRest reply, rest'', ?_, ?_, ?_⟩
  · rw [announcement_eq h, List.append_assoc, List.cons_append, nextToken,
      strtok_append h.space h.ne_nil, List.append_assoc, List.cons_append]
  · rw [nextToken, strtok_append space_notMem_decimal decimal_ne_nil]
  · rw [nextToken, htoken, ← heq]

theorem length_lines (lines : List Bytes) : lines.length ≤ (crlfLines lines).length := by
  induction lines with
  | nil => exact Nat.zero_le _
  | cons line lines ih =>
    simp only [crlfLines, List.flatMap_cons, List.length_append, List.length_cons,
      List.length_nil] at ih ⊢
    omega

/-- The reply in the buffer: its status is 200, and its lines are followed by the body. -/
theorem received_announced (h : HostName host)
    (hlen : (r.announced host tcp udp).length ≤ maxMsgLen - 1) : ∃ zeros,
    received (buildReq ++ List.replicate (maxMsgLen - buildReq.length) 0)
          (r.announced host tcp udp) =
        crlfLines r.lines ++ ([13, newline] ++ (announcement host tcp udp ++
          (requestRest (r.announced host tcp udp) ++ 0 :: zeros))) ∧
      scanStatus (crlfLines r.lines ++ ([13, newline] ++ (announcement host tcp udp ++
          (requestRest (r.announced host tcp udp) ++ 0 :: zeros)))) = some 200 ∧
      cstr (announcement host tcp udp ++ (requestRest (r.announced host tcp udp) ++ 0 :: zeros)) =
        announcement host tcp udp ++ requestRest (r.announced host tcp udp) := by
  obtain ⟨zeros, hbuf⟩ := received_reply hlen
  have hsplit : r.announced host tcp udp ++ (requestRest (r.announced host tcp udp) ++ 0 :: zeros) =
      crlfLines r.lines ++ ([13, newline] ++ (announcement host tcp udp ++
        (requestRest (r.announced host tcp udp) ++ 0 :: zeros))) := by
    simp only [HttpHeader.announced, HttpHeader.reply, List.append_assoc]
  refine ⟨zeros, hbuf.trans hsplit, ?_, ?_⟩
  · rw [← hsplit]
    exact scanStatus_reply (zero_notMem_announced h)
  · rw [← List.append_assoc, cstr_append_zero]
    intro hmem
    rcases List.mem_append.mp hmem with hmem | hmem
    · exact zero_notMem_announcement h hmem
    · exact zero_notMem_requestRest hmem

/-- When the lines fit, the host and the first port are found, and then a token that begins with
the second port. -/
theorem retrieve_eq (h : HostName host)
    (hlen : (r.announced host tcp udp).length ≤ maxMsgLen - 1)
    (hlines : ∀ line ∈ r.lines, line.length < 255) :
    retrieveChatserverInfo overrun (r.announced host tcp udp) =
      .ok (.info (strncpy maxHostNameLen host) tcp (UInt16.ofInt (strtol (decimal udp.toNat ++
        (requestRest (r.announced host tcp udp)).takeWhile fun c => c ≠ 32)))) := by
  obtain ⟨zeros, hbuf, hstatus, hbody⟩ := received_announced h hlen
  obtain ⟨rest, rest', rest'', hname, htcp, hudp⟩ := tokens_of_body tcp udp
    (r.announced host tcp udp) h
  rw [retrieveChatserverInfo]
  simp only [hbuf, hstatus, if_true]
  rw [skipHttpHeaders_lines r.lines_chars hlines (by simp) ?_]
  · simp only [bind, Except.bind, hbody, hname, htcp, hudp, strtol_tcp]
  · have := length_lines r.lines
    rw [List.length_append]
    omega

theorem retrieve_overrun (h : HostName host)
    (hlen : (r.announced host tcp udp).length ≤ maxMsgLen - 1)
    (hlong : ∃ line ∈ r.lines, 255 ≤ line.length) :
    retrieveChatserverInfo (.error .fault) (r.announced host tcp udp) = .error .fault := by
  obtain ⟨zeros, hbuf, hstatus, -⟩ := received_announced h hlen
  rw [retrieveChatserverInfo]
  simp only [hbuf, hstatus, if_true]
  rw [skipHttpHeaders_overrun r.lines_chars hlong (by simp) ?_]
  · rfl
  · have := length_lines r.lines
    rw [List.length_append]
    omega

theorem cstr_host (h : HostName host) : cstr (strncpy maxHostNameLen host).toList = host := by
  rw [cstr_strncpy, cstr_self h.zero, List.take_of_length_le h.short.le]

end Retrieve

/-- The location of the server is retrieved as it was announced when every line of the header
fits with its carriage return into `line`, and no digit of the request follows the reply. -/
theorem location_round_trip_iff (h : HostName host)
    (hlen : (r.announced host tcp udp).length ≤ maxMsgLen - 1) :
    RoundTrip r host tcp udp ↔ (∀ line ∈ r.lines, line.length < 255) ∧
      ((r.announced host tcp udp).length = 41 → udp = 29127) ∧
      ((r.announced host tcp udp).length = 43 → udp = 0) := by
  rw [← strtol_udp_iff (length_announced h)]
  constructor
  · intro hr
    have hlines : ∀ line ∈ r.lines, line.length < 255 := by
      by_contra hlong
      simp only [not_forall, Nat.not_lt, exists_prop] at hlong
      obtain ⟨name, hok, -⟩ := hr (.error .fault)
      rw [retrieve_overrun h hlen hlong] at hok
      cases hok
    obtain ⟨name, hok, -⟩ := hr (.ok ())
    rw [retrieve_eq h hlen hlines] at hok
    injection hok with hok
    injection hok with _ _ hudp
    exact ⟨hlines, hudp⟩
  · rintro ⟨hlines, hudp⟩ overrun
    refine ⟨_, ?_, cstr_host h⟩
    rw [retrieve_eq h hlen hlines, hudp]

theorem word_of_all {word : Bytes} (h : (word.all fun c => !isSpace c) = true) :
    ∀ c ∈ word, isSpace c = false := fun c hc => by
  simpa using List.all_eq_true.mp h c hc

/-- `HTTP/1.0 200 OK` and one more line. -/
def shortHeader : HttpHeader where
  version := text "HTTP/1.0"
  reason := text " OK"
  fields := [text "Content-Type: text/plain"]
  word := ⟨by decide, word_of_all (by decide)⟩
  phrase := .inr ⟨text "OK", rfl⟩
  chars := by decide

theorem wolf_hostName : HostName (text "wolf.cdf") := ⟨by decide, by decide, by decide, by decide⟩

theorem location_round_trip_iff_wolf : RoundTrip shortHeader (text "wolf.cdf") 3456 34567 ↔
    (∀ line ∈ shortHeader.lines, line.length < 255) ∧
      ((shortHeader.announced (text "wolf.cdf") 3456 34567).length = 41 →
        (34567 : UInt16) = 29127) ∧
      ((shortHeader.announced (text "wolf.cdf") 3456 34567).length = 43 → (34567 : UInt16) = 0) :=
  location_round_trip_iff wolf_hostName (by decide +kernel)

/-- A line of 257 characters, the last of which is skipped as the newline of a line of 256. -/
def longHeader : HttpHeader where
  version := text "HTTP/1.0"
  reason := text " OK"
  fields := [List.replicate 257 120]
  word := ⟨by decide, word_of_all (by decide)⟩
  phrase := .inr ⟨text "OK", rfl⟩
  chars := by decide +kernel

/-- What is left of the line looks like the empty one: its end is taken for the host, even when
the write behind `line` does no harm. -/
theorem long_line_misread : (∃ name, retrieveChatserverInfo (.ok ())
      (longHeader.announced (text "wolf.cdf") 3456 34567) = .ok (.info name 3456 34567) ∧
      cstr name.toList = 13 :: newline :: text "wolf.cdf") ∧
    ¬RoundTrip longHeader (text "wolf.cdf") 3456 34567 := by
  have hread : retrieveChatserverInfo (.ok ())
      (longHeader.announced (text "wolf.cdf") 3456 34567) =
        .ok (.info (strncpy maxHostNameLen (13 :: newline :: text "wolf.cdf")) 3456 34567) := by
    decide +kernel
  refine ⟨⟨_, hread, by decide +kernel⟩, fun hr => ?_⟩
  obtain ⟨name, hok, hhost⟩ := hr (.ok ())
  rw [hread] at hok
  injection hok with hok
  injection hok with hname
  rw [← hname] at hhost
  exact absurd hhost (by decide +kernel)

end Csc469.Chat
