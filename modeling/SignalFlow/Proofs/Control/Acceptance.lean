import SignalFlow.Proofs.Control.Packets

/-!
# Packets that are accepted

Every packet is written. A double that is not finite has no number in JSON and is written as null,
which is no value of a packet, so that the text is refused as a whole when it is read. A packet
without such a double is accepted, and comes back with the same names and kinds.
-/

namespace SignalFlow.Control

open SignalFlow.Json SignalFlow.Numeric

/-- A value that is written as a value: if it is a double, it is finite. -/
def Value.IsFinite : Value → Prop
  | .double x => x.isFinite = true
  | .bool _ | .uint _ | .text _ => True

/-- A value of the same kind. Only doubles may differ. -/
structure Value.Resembles (v v' : Value) : Prop where
  kind : v'.kind = v.kind
  same : v.kind ≠ .double → v' = v

/-- What is read of a written value: a value that resembles it, or null if it is not finite. -/
inductive Value.ReadsAs (v : Value) : Except Problem Value → Prop
  | value {v' : Value} (hfinite : v.IsFinite) (h : v.Resembles v') : ReadsAs v (.ok v')
  | null (hfinite : ¬ v.IsFinite) : ReadsAs v (.error .unfit)

theorem Value.Resembles.refl (v : Value) : v.Resembles v :=
  ⟨rfl, fun _ ↦ rfl⟩

theorem Value.ReadsAs.of_ok {v v' : Value} (h : v.ReadsAs (.ok v')) :
    v.IsFinite ∧ v.Resembles v' := by
  cases h with
  | value hfinite h => exact ⟨hfinite, h⟩

theorem Value.ReadsAs.of_error {v : Value} {problem : Problem} (h : v.ReadsAs (.error problem)) :
    problem = .unfit ∧ ¬ v.IsFinite := by
  cases h with
  | null hfinite => exact ⟨rfl, hfinite⟩

/-- A written value is read as one token, which is the same wherever the value stands. -/
theorem Value.exists_reads (v : Value) : ∃ token, Reads v.writeJson token ∧
    ∃ read, (∀ depth rest, Value.ofToken depth rest token = read) ∧ v.ReadsAs read := by
  have hplain (htravels : v.Travels) (hfinite : v.IsFinite) : ∃ token, Reads v.writeJson token ∧
      ∃ read, (∀ depth rest, Value.ofToken depth rest token = read) ∧ v.ReadsAs read :=
    ⟨v.token, htravels.reads, .ok v, fun depth rest ↦ Value.ofToken_token depth rest v,
      .value hfinite (.refl v)⟩
  cases v with
  | bool _ | uint _ | text _ => exact hplain trivial trivial
  | double x =>
    by_cases hfinite : x.isFinite = true
    · obtain ⟨y, hreads⟩ := exists_reads_double hfinite
      exact ⟨_, hreads, .ok (.double y), fun _ _ ↦ rfl, .value hfinite ⟨rfl, fun h ↦ absurd rfl h⟩⟩
    · have hnull : Value.writeJson (.double x) = "null".toList := if_neg hfinite
      exact ⟨.null, hnull ▸ reads_null, .error .unfit, fun _ _ ↦ rfl, .null hfinite⟩

/-- A packet of the same names with values that resemble the values of this one. -/
def Packet.Resembles (packet packet' : Packet) : Prop :=
  List.Forall₂ (fun member member' ↦ member'.1 = member.1 ∧ member.2.Resembles member'.2)
    packet.entries packet'.entries

/-- Members that keep their names make a packet with exactly these members. -/
theorem Packet.entries_ofList {packet : Packet} {members : List (String × Value)}
    (h : packet.entries.map Prod.fst = members.map Prod.fst) :
    (NameMap.ofList members).entries = members := by
  have hnames : (packet.entries.map Prod.fst).Pairwise (· < ·) :=
    List.pairwise_map.2 packet.ascending
  rw [h, List.pairwise_map] at hnames
  exact NameMap.entries_insertAll .empty hnames

/-- A written packet is read or refused as a whole. -/
theorem Packet.readJson_cases (packet : Packet) :
    (∃ packet', Packet.readJson packet.writeJson = .ok packet' ∧ packet.Resembles packet' ∧
      ∀ member ∈ packet.entries, member.2.IsFinite) ∨
    (Packet.readJson packet.writeJson = .error .unfit ∧
      ∃ member ∈ packet.entries, ¬ member.2.IsFinite) := by
  choose token htoken read hread hreadsAs using Value.exists_reads
  rw [Packet.readJson_eq_mapM (fun member _ ↦ htoken member.2) hread]
  cases hrun : packet.entries.mapM fun member ↦ (read member.2).map (member.1, ·) with
  | ok members =>
    have hmembers : List.Forall₂ (fun member member' ↦ member'.1 = member.1 ∧
        member.2.Resembles member'.2) packet.entries members := by
      refine (mapM_eq_ok_iff.1 hrun).imp fun member member' h ↦ ?_
      obtain ⟨v, hv, rfl⟩ := map_eq_ok_iff.1 h
      exact ⟨rfl, (hv ▸ hreadsAs member.2).of_ok.2⟩
    have hnames : packet.entries.map Prod.fst = members.map Prod.fst := by
      rw [← List.forall₂_eq_eq_eq, List.forall₂_map_left_iff, List.forall₂_map_right_iff]
      exact hmembers.imp fun _ _ h ↦ h.1.symm
    refine .inl ⟨NameMap.ofList members, rfl, ?_, fun member hmember ↦ ?_⟩
    · rwa [Packet.Resembles, Packet.entries_ofList hnames]
    · obtain ⟨member', h⟩ := exists_mapM_eq_ok_iff.1 ⟨members, hrun⟩ member hmember
      obtain ⟨v, hv, -⟩ := map_eq_ok_iff.1 h
      exact (hv ▸ hreadsAs member.2).of_ok.1
  | error problem =>
    obtain ⟨member, hmember, h⟩ := exists_eq_error_of_mapM hrun
    have hrefused : read member.2 = .error problem := map_eq_error_iff.1 h
    obtain ⟨rfl, hinfinite⟩ := (hrefused ▸ hreadsAs member.2).of_error
    exact .inr ⟨rfl, member, hmember, hinfinite⟩

/-- Every packet is written, but its text is read only if all of its doubles are finite: a packet
that resembles it comes back then, and otherwise the text is refused as unfit. -/
theorem Packet.accepted_iff_finite (packet : Packet) :
    ((∃ packet', Packet.readJson packet.writeJson = .ok packet' ∧ packet.Resembles packet') ↔
      ∀ member ∈ packet.entries, member.2.IsFinite) ∧
    (Packet.readJson packet.writeJson = .error .unfit ↔
      ∃ member ∈ packet.entries, ¬ member.2.IsFinite) := by
  rcases packet.readJson_cases with ⟨packet', hread, hsame, hfinite⟩ | ⟨hread, hinfinite⟩
  · have hnone : ¬ ∃ member ∈ packet.entries, ¬ member.2.IsFinite := by
      rintro ⟨member, hmember, h⟩
      exact h (hfinite member hmember)
    refine ⟨iff_of_true ⟨packet', hread, hsame⟩ hfinite, iff_of_false ?_ hnone⟩
    rw [hread]
    nofun
  · obtain ⟨member, hmember, h⟩ := hinfinite
    refine ⟨iff_of_false ?_ fun hfinite ↦ h (hfinite member hmember),
      iff_of_true hread ⟨member, hmember, h⟩⟩
    rintro ⟨packet', haccepted, -⟩
    rw [hread] at haccepted
    cases haccepted

/-- A packet with one value, which is no number. -/
def unmeasured : Packet where
  entries := [("x", .double .nan)]
  ascending := List.pairwise_singleton _ _

theorem unmeasured_is_written_and_refused :
    Packet.writeJson unmeasured = "\x7b\"x\":null\x7d".toList ∧
      Packet.readJson (Packet.writeJson unmeasured) = .error .unfit := by
  decide +kernel

end SignalFlow.Control
