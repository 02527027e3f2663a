import SignalFlow.Control.Packet
import SignalFlow.Proofs.Except
import SignalFlow.Proofs.Json.Tokens
import SignalFlow.Proofs.NameMap
import SignalFlow.Proofs.Numeric.Values

/-!
# Packets that travel

A packet is written in JSON without the kinds of its values. The written forms of the kinds have
no text in common, so that a packet reads back as itself, with every value of the kind that it
had. Of a double it has to be known that its text alone is read as the same double; that it is
read as a double and nothing else follows from its fraction or its exponent.
-/

namespace SignalFlow.Control

open SignalFlow.Json SignalFlow.Numeric

/-- A value that can be read: doubles are finite, and their texts read back. -/
def Value.Travels : Value → Prop
  | .double x => x.isFinite = true ∧ ReadsBack x
  | _ => True

def Value.token : Value → Token
  | .bool b => .truth b
  | .uint n => .number (.natural n.toNat)
  | .double x => .number (.real x)
  | .text s => .text s.toList

theorem Value.Travels.reads {value : Value} (h : value.Travels) :
    Reads value.writeJson value.token := by
  cases value with
  | bool b =>
    cases b with
    | false => exact reads_false
    | true => exact reads_true
  | uint n =>
    have hn : n.toNat < 2 ^ 32 := n.toNat_lt
    exact reads_natural (Nat.le_trans hn.le (by decide))
  | double x => exact reads_double h.1 h.2
  | text s => exact reads_quote s.toList

theorem Value.ofToken_token (depth : Nat) (rest : List Token) (value : Value) :
    Value.ofToken depth rest value.token = .ok value := by
  cases value with
  | bool b => rfl
  | uint n =>
    have hn : n.toNat < UInt32.size := n.toNat_lt
    rw [token, ofToken, ofNumber, if_pos hn, UInt32.ofNat_toNat]
  | double x => rfl
  | text s => rw [token, ofToken, String.ofList_toList]

theorem Value.Travels.same_self {value : Value} (h : value.Travels) :
    value.same value = true := by
  cases value with
  | double x => exact Binary.same_self (Binary.isNaN_of_isFinite h.1)
  | bool _ | uint _ | text _ => exact beq_self_eq_true _

section Members

variable {token : Value → Token} {value : Value → Except Problem Value} {s : List Char}
  {ts : List Token} {members : List (String × Value)}

def memberTokens (token : Value → Token) (member : String × Value) : List Token :=
  [.text member.1.toList, .colon, token member.2]

/-- The tokens of named values with commas between them. -/
def membersTokens (token : Value → Token) : List (String × Value) → List Token
  | [] => []
  | [m] => memberTokens token m
  | m :: rest => memberTokens token m ++ .comma :: membersTokens token rest

theorem writeMembers_cons (member next : String × Value) (members : List (String × Value)) :
    writeMembers (member :: next :: members) =
      writeMember member ++ ',' :: writeMembers (next :: members) :=
  rfl

theorem membersTokens_cons (token : Value → Token) (member next : String × Value)
    (members : List (String × Value)) : membersTokens token (member :: next :: members) =
      memberTokens token member ++ .comma :: membersTokens token (next :: members) :=
  rfl

theorem scans_writeMember {member : String × Value} (h : Reads member.2.writeJson (token member.2))
    (hs : Ends s) (hscan : Scans s ts) :
    Scans (writeMember member ++ s) (memberTokens token member ++ ts) := by
  have hcolon : Ends (':' :: (member.2.writeJson ++ s)) := by simp [Ends]
  have hvalue := (hscan.append h hs).mark (c := ':') rfl
  have hmember := hvalue.append (reads_quote member.1.toList) hcolon
  rwa [writeMember, List.append_assoc, List.cons_append]

theorem scans_writeMembers (h : ∀ member ∈ members, Reads member.2.writeJson (token member.2))
    (hs : Ends s) (hscan : Scans s ts) :
    Scans (writeMembers members ++ s) (membersTokens token members ++ ts) := by
  induction members with
  | nil => exact hscan
  | cons member members ih =>
    obtain ⟨hmember, hmembers⟩ := List.forall_mem_cons.1 h
    cases members with
    | nil => exact scans_writeMember hmember hs hscan
    | cons next members =>
      have hcomma : Ends (',' :: (writeMembers (next :: members) ++ s)) := by simp [Ends]
      rw [writeMembers_cons, membersTokens_cons, List.append_assoc, List.append_assoc]
      exact scans_writeMember hmember hcomma ((ih hmembers).mark rfl)

theorem readMembers_comma (hvalue : ∀ v depth rest, Value.ofToken depth rest (token v) = value v)
    (first : Bool) (packet : Packet) (member : String × Value) (rest : List Token) :
    readMembers first packet (memberTokens token member ++ .comma :: rest) =
      value member.2 >>= fun v ↦ readMembers false (packet.insert member.1 v) rest := by
  simp only [memberTokens, List.cons_append, List.nil_append, readMembers, hvalue]
  cases value member.2 <;> simp [bind, Except.bind]

theorem readMembers_endObject
    (hvalue : ∀ v depth rest, Value.ofToken depth rest (token v) = value v)
    (first : Bool) (packet : Packet) (member : String × Value) (rest : List Token) :
    readMembers first packet (memberTokens token member ++ .endObject :: rest) =
      (value member.2).map fun v ↦ (packet.insert member.1 v, rest) := by
  simp only [memberTokens, List.cons_append, List.nil_append, readMembers, hvalue]
  cases value member.2 <;> simp [Except.map]

/-- Members are read one by one and put into the packet in the order in which they stand. -/
theorem readMembers_eq_mapM
    (hvalue : ∀ v depth rest, Value.ofToken depth rest (token v) = value v) (first : Bool)
    (packet : Packet) (members : List (String × Value)) (h : members = [] → first = true)
    (rest : List Token) :
    readMembers first packet (membersTokens token members ++ .endObject :: rest) =
      (members.mapM fun member ↦ (value member.2).map (member.1, ·)).map fun read ↦
        (packet.insertAll read, rest) := by
  induction members generalizing first packet with
  | nil =>
    rw [h rfl]
    rfl
  | cons member members ih =>
    rw [List.mapM_cons]
    cases members with
    | nil =>
      rw [membersTokens, readMembers_endObject hvalue]
      cases value member.2 <;> rfl
    | cons next members =>
      rw [membersTokens_cons, List.append_assoc, List.cons_append, readMembers_comma hvalue]
      cases value member.2 with
      | error problem => rfl
      | ok v =>
        change readMembers false (packet.insert member.1 v)
          (membersTokens token (next :: members) ++ .endObject :: rest) = _
        rw [ih false (packet.insert member.1 v) nofun]
        cases (next :: members).mapM fun member ↦ (value member.2).map (member.1, ·) <;> rfl

/-- Members whose tokens tell their values are put in as they are. -/
theorem readMembers_membersTokens (first : Bool) (packet : Packet)
    (members : List (String × Value)) (h : members = [] → first = true) (rest : List Token) :
    readMembers first packet (membersTokens Value.token members ++ .endObject :: rest) =
      .ok (packet.insertAll members, rest) := by
  have hvalue (v : Value) (depth : Nat) (rest : List Token) := Value.ofToken_token depth rest v
  have hmembers : members.mapM (fun member ↦
      (Except.ok member.2 : Except Problem Value).map (member.1, ·)) = .ok members :=
    mapM_eq_ok_iff.2 (List.forall₂_same.2 fun _ _ ↦ rfl)
  rw [readMembers_eq_mapM hvalue first packet members h, hmembers]
  rfl

end Members

/-- The tokens of a packet are those of its members in braces. -/
theorem Packet.tokens_eq_of_reads {token : Value → Token} {packet : Packet}
    (h : ∀ member ∈ packet.entries, Reads member.2.writeJson (token member.2)) :
    tokens packet.writeJson =
      .beginObject :: (membersTokens token packet.entries ++ [.endObject]) := by
  have hclose : Scans ['\x7d'] [.endObject] := Scans.nil.mark rfl
  have hends : Ends ['\x7d'] := by simp [Ends]
  exact ((scans_writeMembers h hends hclose).mark rfl).tokens

theorem Packet.tokens_writeJson {packet : Packet}
    (h : ∀ member ∈ packet.entries, member.2.Travels) :
    tokens packet.writeJson =
      .beginObject :: (membersTokens Value.token packet.entries ++ [.endObject]) :=
  tokens_eq_of_reads fun member hmember ↦ (h member hmember).reads

theorem Packet.readJson_eq_mapM {token : Value → Token} {value : Value → Except Problem Value}
    {packet : Packet} (h : ∀ member ∈ packet.entries, Reads member.2.writeJson (token member.2))
    (hvalue : ∀ v depth rest, Value.ofToken depth rest (token v) = value v) :
    Packet.readJson packet.writeJson =
      (packet.entries.mapM fun member ↦ (value member.2).map (member.1, ·)).map NameMap.ofList := by
  have hmembers := readMembers_eq_mapM hvalue true .empty packet.entries (fun _ ↦ rfl) []
  rw [readJson, tokens_eq_of_reads h]
  dsimp only
  rw [hmembers]
  cases packet.entries.mapM fun member ↦ (value member.2).map (member.1, ·) <;> rfl

/-- A packet reads back as itself, whatever its names and texts are, if its doubles are finite and
their texts read back. -/
theorem Packet.survives_json (packet : Packet) (h : ∀ member ∈ packet.entries, member.2.Travels) :
    Packet.readJson packet.writeJson = .ok packet ∧ packet.agree Value.same packet = true := by
  refine ⟨?_, NameMap.agree_self fun member hmember ↦ (h member hmember).same_self⟩
  have hmembers := readMembers_membersTokens true .empty packet.entries (fun _ ↦ rfl) []
  have hentries : NameMap.empty.insertAll packet.entries = packet := NameMap.ofList_entries packet
  rw [hentries] at hmembers
  rw [readJson, tokens_writeJson h]
  dsimp only
  rw [hmembers]
  rfl

/-- A packet whose names and texts need escapes, with values that could be taken for others. -/
def disguised : Packet where
  entries := [("", .bool true), ("\x00\n\x1f", .text "1"), ("\"\\\"", .text "true"),
    ("rate", .double (Binary.ofNat binary64 103500000)), ("size", .uint 4294967295),
    ("\x7f\u2028🕐", .double (Binary.ofDecimal binary64 true ⟨25, -301⟩))]
  ascending := by decide

theorem disguised_survives : (∀ member ∈ disguised.entries, member.2.Travels) ∧
    Packet.readJson (Packet.writeJson disguised) = .ok disguised ∧
      disguised.agree Value.same disguised = true := by
  have hwhole : Value.Travels (.double (Binary.ofNat binary64 103500000)) :=
    ⟨by decide +kernel, .real (Binary.ofNat binary64 103500000), by decide +kernel, rfl⟩
  have hsmall : Value.Travels (.double (Binary.ofDecimal binary64 true ⟨25, -301⟩)) :=
    ⟨by decide +kernel, .real (Binary.ofDecimal binary64 true ⟨25, -301⟩), by decide +kernel, rfl⟩
  have htravels : ∀ member ∈ disguised.entries, member.2.Travels := by
    simp only [disguised, List.forall_mem_cons]
    exact ⟨trivial, trivial, trivial, hwhole, trivial, hsmall, nofun⟩
  exact ⟨htravels, Packet.survives_json disguised htravels⟩

end SignalFlow.Control
