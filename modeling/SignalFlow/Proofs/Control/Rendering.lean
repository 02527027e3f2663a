import SignalFlow.Proofs.Control.Queries
import SignalFlow.Proofs.Numeric.Reading

/-!
# Queries that are written

The written form of a value is what a query holds for it. Updates whose names are in the schema,
with values of the right kinds, come back from the query that their names and the written forms
of their values make. Doubles have to be finite; a text or a name must not hold what separates
pairs or the sides of a pair.
-/

namespace SignalFlow.Control

open SignalFlow.Numeric

/-- A text that is not cut in a query. -/
structure Unbroken (s : String) : Prop where
  no_ampersand : '&' ∉ s.toList
  no_equals : '=' ∉ s.toList

/-- A value that a query can hold. -/
def Value.Writable : Value → Prop
  | .bool _ | .uint _ => True
  | .double x => x.isFinite = true
  | .text s => Unbroken s

namespace Value

variable {value : Value}

/-- The written form of a value is read as the value. -/
theorem Writable.readValue?_render (h : value.Writable) :
    value.kind.readValue? value.render = some value := by
  cases value with
  | bool b => cases b <;> rfl
  | uint n =>
    have hn : n.toNat ≤ UInt32.size - 1 := Nat.le_pred_of_lt n.toNat_lt
    change (readNatural? _ (String.ofList (Nat.toDigits 10 n.toNat)).toList).map _ = _
    rw [String.toList_ofList, readNatural?_toDigits hn, Option.map_some, UInt32.ofNat_toNat]
  | double x =>
    have hfinite : x.isFinite = true := h
    calc
      ((Binary.read? binary64 (String.ofList (Layout.plain.write x)).toList).filter
          Binary.isFinite).map Value.double =
          ((some x).filter Binary.isFinite).map Value.double := by
        rw [String.toList_ofList, Binary.read?_write (by decide) hfinite]
      _ = some (.double x) := by rw [Option.filter_some, if_pos hfinite, Option.map_some]
  | text s => rfl

theorem unbroken_ofList {s : List Char} (h : ∀ c ∈ s, c.isDigit = true ∨ c = '.' ∨ c = '-') :
    Unbroken (String.ofList s) := by
  rw [← String.toList_ofList (l := s)] at h
  exact ⟨fun hmem ↦ absurd (h _ hmem) (by decide), fun hmem ↦ absurd (h _ hmem) (by decide)⟩

theorem Writable.unbroken_render (h : value.Writable) : Unbroken value.render := by
  cases value with
  | bool b => cases b <;> exact ⟨by decide, by decide⟩
  | uint n => exact unbroken_ofList fun c hc ↦ .inl (isDigit_of_mem_toDigits c hc)
  | double x => exact unbroken_ofList (Binary.chars_write (by decide) h)
  | text s => exact h

end Value

def writeUpdate (update : String × Value) : String :=
  update.1 ++ "=" ++ update.2.render

/-- Updates as a query, in the order of their names. -/
def Updates.query (updates : Updates) : String :=
  "&".intercalate (updates.entries.map writeUpdate)

namespace Schema

variable {schema : Schema} {update : String × Value}

/-- An update that a query can hold, of a control of the schema and of its kind. -/
structure Holds (schema : Schema) (update : String × Value) : Prop where
  kind_eq : ∃ spec, schema.get? update.1 = some spec ∧ spec.kind = update.2.kind
  name_unbroken : Unbroken update.1
  writable : update.2.Writable

theorem Holds.isPair (h : schema.Holds update) :
    IsPair (writeUpdate update).toList update.1 update.2.render where
  count_eq := by
    calc
      (writeUpdate update).toList.count '=' = update.1.toList.count '=' +
          "=".toList.count '=' + update.2.render.toList.count '=' := by
        rw [writeUpdate, String.toList_append, String.toList_append, List.count_append,
          List.count_append]
      _ = 0 + 1 + 0 := by
        rw [List.count_eq_zero.2 h.name_unbroken.no_equals,
          List.count_eq_zero.2 h.writable.unbroken_render.no_equals]
        rfl
  sides := by
    rw [writeUpdate, String.toList_append, String.toList_append, List.append_assoc]
    rfl

theorem Holds.isArgument (h : schema.Holds update) : IsArgument (writeUpdate update) where
  count_eq := h.isPair.count_eq
  no_ampersand := by
    rw [h.isPair.sides]
    simp [h.name_unbroken.no_ampersand, h.writable.unbroken_render.no_ampersand]

theorem Holds.entryOf_eq (h : schema.Holds update) :
    schema.entryOf (writeUpdate update).toList = .ok update := by
  obtain ⟨spec, hspec, hkind⟩ := h.kind_eq
  refine entryOf_eq_ok_iff.2 ⟨update.2.render, spec, h.isPair, hspec, ?_⟩
  rw [Spec.readValue, hkind, h.writable.readValue?_render]

/-- Updates come back from the query that they are written as. -/
theorem written_updates_read_back (schema : Schema) (updates : Updates)
    (h : ∀ update ∈ updates.entries, schema.Holds update) :
    schema.readQuery updates.query = .ok updates := by
  have harguments : ∀ argument ∈ updates.entries.map writeUpdate, IsArgument argument :=
    List.forall_mem_map.2 fun update hupdate ↦ (h update hupdate).isArgument
  have hentries : ((updates.entries.map writeUpdate).map String.toList).mapM schema.entryOf =
      .ok updates.entries := by
    rw [List.map_map, mapM_eq_ok_iff, List.forall₂_map_left_iff, List.forall₂_same]
    exact fun update hupdate ↦ (h update hupdate).entryOf_eq
  calc schema.readQuery updates.query
    _ = (((updates.entries.map writeUpdate).map String.toList).mapM schema.entryOf).map .ofList :=
      readQuery_intercalate harguments
    _ = .ok (.ofList updates.entries) := by rw [hentries, Except.map]
    _ = .ok updates := by rw [NameMap.ofList_entries]

/-- A schema with a control of each kind, one of them without a name. -/
def motley : Schema where
  entries := [("", .ofKind .text), ("gain", .ofKind .double), ("level", .ofKind .uint),
    ("mono", .ofKind .bool), ("offset", .ofKind .double)]
  ascending := by decide

/-- Updates of these controls: an empty text, minus zero, the greatest whole number, a switch,
and the least double above zero. -/
def motleyUpdates : Updates where
  entries := [("", .text ""), ("gain", .double (Binary.zero binary64 true)),
    ("level", .uint 4294967295), ("mono", .bool true),
    ("offset", .double (Binary.ofRank binary64 false 1))]
  ascending := by decide

theorem motleyUpdates_read_back : (∀ update ∈ motleyUpdates.entries, motley.Holds update) ∧
    motley.readQuery motleyUpdates.query = .ok motleyUpdates := by
  have hholds : ∀ update ∈ motleyUpdates.entries, motley.Holds update := by
    simp only [motleyUpdates, List.forall_mem_cons]
    exact ⟨⟨⟨_, rfl, rfl⟩, ⟨by decide, by decide⟩, ⟨by decide, by decide⟩⟩,
      ⟨⟨_, rfl, rfl⟩, ⟨by decide, by decide⟩, rfl⟩,
      ⟨⟨_, rfl, rfl⟩, ⟨by decide, by decide⟩, trivial⟩,
      ⟨⟨_, rfl, rfl⟩, ⟨by decide, by decide⟩, trivial⟩,
      ⟨⟨_, rfl, rfl⟩, ⟨by decide, by decide⟩, rfl⟩, nofun⟩
  exact ⟨hholds, motley.written_updates_read_back motleyUpdates hholds⟩

end Schema

end SignalFlow.Control
