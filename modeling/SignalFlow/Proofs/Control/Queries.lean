import SignalFlow.Control.Query
import SignalFlow.Proofs.Except
import SignalFlow.Proofs.NameMap
import SignalFlow.Proofs.Text

/-!
# Queries and their grammar

A query is empty, or each of its segments is a name of the schema and a text that is accepted
there, with the only equals sign between them. What is read is the value of the last segment of
each name. If there are segments that are not so, the first of them is refused: because it is not
a pair, else because its name is unknown, else because of its text.

Arguments of a command line that hold one equals sign each and no ampersand are read like the
query that they make when they are joined.
-/

namespace SignalFlow.Control

open SignalFlow.Text

/-- The segments of a query: what stands between its ampersands. -/
def segments (query : String) : List (List Char) :=
  query.toList.splitOn '&'

/-- A segment with exactly one equals sign, the name before it and the text behind it. -/
structure IsPair (segment : List Char) (name raw : String) : Prop where
  count_eq : segment.count '=' = 1
  sides : segment = name.toList ++ '=' :: raw.toList

namespace Schema

variable {schema : Schema} {segment : List Char} {name raw : String} {value : Value}

/-- A segment that is read: its name is one of the schema, and its text is accepted there. -/
def Sets (schema : Schema) (segment : List Char) (name : String) (value : Value) : Prop :=
  ∃ raw spec, IsPair segment name raw ∧ schema.get? name = some spec ∧
    spec.readValue name raw = .ok value

/-- A segment that is refused, and why. A segment that is not a pair is not asked for its name,
and the text behind an unknown name is not read. -/
inductive Refuses (schema : Schema) (segment : List Char) : QueryError → Prop
  | malformed (hcount : segment.count '=' ≠ 1) :
      Refuses schema segment (.malformedPair (String.ofList segment))
  | unknown {name raw : String} (hpair : IsPair segment name raw)
      (hname : schema.get? name = none) : Refuses schema segment (.unknownParameter name)
  | invalid {name raw : String} {spec : Spec} (hpair : IsPair segment name raw)
      (hname : schema.get? name = some spec) (hraw : spec.kind.readValue? raw = none) :
      Refuses schema segment (.invalidValue name spec.kind raw)

/-- The grammar of queries. -/
def Accepts (schema : Schema) (query : String) : Prop :=
  query = "" ∨ ∀ segment ∈ segments query, ∃ name value, schema.Sets segment name value

/-- The value that the last segment of a name sets. -/
def LastSets (schema : Schema) (row : List (List Char)) (name : String) (value : Value) : Prop :=
  ∃ before segment after, row = before ++ segment :: after ∧ schema.Sets segment name value ∧
    ∀ later ∈ after, ∀ other, ¬ schema.Sets later name other

/-- Why the first segment is refused that is not read. -/
def FirstRefuses (schema : Schema) (row : List (List Char)) (e : QueryError) : Prop :=
  ∃ before segment after, row = before ++ segment :: after ∧
    (∀ earlier ∈ before, ∃ name value, schema.Sets earlier name value) ∧ schema.Refuses segment e

/-- What a segment sets, or why it is refused. -/
def entryOf (schema : Schema) (segment : List Char) : Except QueryError (String × Value) :=
  match pieces '=' segment with
  | [name, raw] => schema.readEntry (String.ofList name) (String.ofList raw)
  | _ => .error (.malformedPair (String.ofList segment))

theorem readPair_eq (schema : Schema) (updates : Updates) (name raw : String) :
    schema.readPair updates name raw =
      (schema.readEntry name raw).map fun e ↦ updates.insert e.1 e.2 := by
  unfold readPair readEntry
  split
  · rfl
  · cases Spec.readValue _ name raw <;> rfl

theorem readSegment_eq (schema : Schema) (updates : Updates) (segment : List Char) :
    schema.readSegment updates segment =
      (schema.entryOf segment).map fun e ↦ updates.insert e.1 e.2 := by
  unfold readSegment entryOf
  rcases pieces '=' segment with _ | ⟨name, _ | ⟨raw, _ | ⟨other, more⟩⟩⟩
  · rfl
  · rfl
  · exact schema.readPair_eq updates _ _
  · rfl

theorem pieces_eq_of_isPair (h : IsPair segment name raw) :
    pieces '=' segment = [name.toList, raw.toList] :=
  pieces_eq_pair_iff.2 ⟨h.count_eq, h.sides⟩

theorem entryOf_of_isPair (schema : Schema) (h : IsPair segment name raw) :
    schema.entryOf segment = schema.readEntry name raw := by
  rw [entryOf, pieces_eq_of_isPair h]
  exact congrArg₂ schema.readEntry String.ofList_toList String.ofList_toList

theorem entryOf_of_count_ne (schema : Schema) (h : segment.count '=' ≠ 1) :
    schema.entryOf segment = .error (.malformedPair (String.ofList segment)) := by
  unfold entryOf
  split
  · next hpieces => exact absurd (exists_pieces_eq_pair_iff.1 ⟨_, _, hpieces⟩) h
  · rfl

theorem exists_isPair (h : segment.count '=' = 1) : ∃ name raw, IsPair segment name raw := by
  obtain ⟨before, after, hpieces⟩ := exists_pieces_eq_pair_iff.2 h
  obtain ⟨hcount, hsides⟩ := pieces_eq_pair_iff.1 hpieces
  refine ⟨String.ofList before, String.ofList after, hcount, ?_⟩
  rwa [String.toList_ofList, String.toList_ofList]

theorem entryOf_eq_ok_iff :
    schema.entryOf segment = .ok (name, value) ↔ schema.Sets segment name value := by
  constructor
  · intro h
    by_cases hcount : segment.count '=' = 1
    · obtain ⟨name', raw, hpair⟩ := exists_isPair hcount
      rw [schema.entryOf_of_isPair hpair, readEntry] at h
      split at h
      · cases h
      · next spec hspec =>
        obtain ⟨value', hvalue, heq⟩ := map_eq_ok_iff.1 h
        obtain ⟨rfl, rfl⟩ := Prod.mk.inj heq
        exact ⟨raw, spec, hpair, hspec, hvalue⟩
    · rw [schema.entryOf_of_count_ne hcount] at h
      cases h
  · rintro ⟨raw, spec, hpair, hspec, hvalue⟩
    rw [schema.entryOf_of_isPair hpair, readEntry, hspec]
    dsimp only
    rw [hvalue]
    rfl

theorem entryOf_eq_error_iff {e : QueryError} :
    schema.entryOf segment = .error e ↔ schema.Refuses segment e := by
  constructor
  · intro h
    by_cases hcount : segment.count '=' = 1
    · obtain ⟨name, raw, hpair⟩ := exists_isPair hcount
      rw [schema.entryOf_of_isPair hpair, readEntry] at h
      split at h
      · next hname =>
        cases h
        exact .unknown hpair hname
      · next spec hspec =>
        rw [map_eq_error_iff, Spec.readValue] at h
        split at h
        · cases h
        · next hraw =>
          cases h
          exact .invalid hpair hspec hraw
    · rw [schema.entryOf_of_count_ne hcount] at h
      cases h
      exact .malformed hcount
  · rintro (hcount | ⟨hpair, hname⟩ | ⟨hpair, hspec, hraw⟩)
    · exact schema.entryOf_of_count_ne hcount
    · rw [schema.entryOf_of_isPair hpair, readEntry, hname]
    · rw [schema.entryOf_of_isPair hpair, readEntry, hspec]
      dsimp only
      rw [Spec.readValue, hraw]
      rfl

theorem readQuery_eq {query : String} (h : query ≠ "") :
    schema.readQuery query = ((segments query).mapM schema.entryOf).map .ofList := by
  have hne : ¬ query.toList.isEmpty = true := by
    rwa [List.isEmpty_iff, String.toList_eq_nil_iff]
  have hread : schema.readSegment = fun updates segment ↦
      (schema.entryOf segment).map fun e ↦ updates.insert e.1 e.2 :=
    funext₂ fun updates segment ↦ schema.readSegment_eq updates segment
  calc
    schema.readQuery query = (pieces '&' query.toList).foldlM schema.readSegment .empty := by
      rw [readQuery, if_neg hne]
    _ = ((pieces '&' query.toList).mapM schema.entryOf).map .ofList := by
      rw [hread, NameMap.foldlM_insert]
      rfl
    _ = ((segments query).mapM schema.entryOf).map .ofList := by
      rw [pieces_eq_splitOn]
      rfl

theorem lastSets_nil : ¬ schema.LastSets [] name value := by
  rintro ⟨before, segment, after, hrow, -⟩
  cases before <;> cases hrow

/-- The last segment of a name is among the others, unless it is the first and alone with its
name. -/
theorem lastSets_cons {row : List (List Char)} : schema.LastSets (segment :: row) name value ↔
    schema.LastSets row name value ∨
      schema.Sets segment name value ∧ ∀ later ∈ row, ∀ other, ¬ schema.Sets later name other := by
  constructor
  · rintro ⟨_ | ⟨first, before⟩, last, after, hrow, hlast, hafter⟩
    · obtain ⟨rfl, rfl⟩ := List.cons.inj hrow
      exact .inr ⟨hlast, hafter⟩
    · obtain ⟨rfl, rfl⟩ := List.cons.inj hrow
      exact .inl ⟨before, last, after, rfl, hlast, hafter⟩
  · rintro (⟨before, last, after, rfl, hlast, hafter⟩ | ⟨hfirst, hrow⟩)
    · exact ⟨segment :: before, last, after, rfl, hlast, hafter⟩
    · exact ⟨[], segment, row, rfl, hfirst, hrow⟩

/-- Behind the entries of segments a name has the value of its last segment, or else the value
that it had before. -/
theorem get?_insertAll_eq_some_iff {row : List (List Char)} {entries : List (String × Value)}
    (h : List.Forall₂ (fun segment entry ↦ schema.entryOf segment = .ok entry) row entries)
    (updates : Updates) (name : String) (value : Value) :
    (updates.insertAll entries).get? name = some value ↔ schema.LastSets row name value ∨
      updates.get? name = some value ∧
        ∀ segment ∈ row, ∀ other, ¬ schema.Sets segment name other := by
  -- the first segment counts only as long as no later one sets its name, so it is put in with the
  -- updates before, and the rest decides
  induction h generalizing updates with
  | nil => simp [lastSets_nil, NameMap.insertAll]
  | @cons segment entry row entries hentry _ ih =>
    obtain ⟨name', value'⟩ := entry
    have hsets (other : Value) :
        schema.Sets segment name other ↔ name = name' ∧ other = value' := by
      rw [← entryOf_eq_ok_iff, hentry, Except.ok.injEq, Prod.mk.injEq, eq_comm, @eq_comm _ value']
    change ((updates.insert name' value').insertAll entries).get? name = some value ↔ _
    rw [ih, NameMap.get?_insert, lastSets_cons, hsets, List.forall_mem_cons]
    by_cases hname : name = name'
    · subst hname
      simp [hsets, eq_comm]
    · simp [hsets, hname]

theorem readQuery_empty (schema : Schema) : schema.readQuery "" = .ok .empty :=
  rfl

theorem not_lastSets_empty : ¬ schema.LastSets (segments "") name value := by
  intro h
  rcases lastSets_cons.1 h with hrow | ⟨⟨raw, spec, hpair, -⟩, -⟩
  · exact lastSets_nil hrow
  · cases hpair.count_eq

variable {query : String} {updates : Updates}

theorem exists_readQuery_iff :
    (∃ updates, schema.readQuery query = .ok updates) ↔ schema.Accepts query := by
  by_cases hquery : query = ""
  · exact iff_of_true ⟨_, hquery ▸ schema.readQuery_empty⟩ (.inl hquery)
  · have hentries : (∃ updates, schema.readQuery query = .ok updates) ↔
        ∃ entries, (segments query).mapM schema.entryOf = .ok entries := by
      simp only [readQuery_eq hquery, map_eq_ok_iff]
      exact ⟨fun ⟨_, entries, h, _⟩ ↦ ⟨entries, h⟩, fun ⟨entries, h⟩ ↦ ⟨_, entries, h, rfl⟩⟩
    rw [hentries, exists_mapM_eq_ok_iff, Accepts, or_iff_right hquery]
    simp only [Prod.exists, entryOf_eq_ok_iff]

theorem get?_of_readQuery (h : schema.readQuery query = .ok updates) (name : String)
    (value : Value) :
    updates.get? name = some value ↔ schema.LastSets (segments query) name value := by
  by_cases hquery : query = ""
  · subst hquery
    cases h
    exact iff_of_false nofun not_lastSets_empty
  · rw [readQuery_eq hquery] at h
    obtain ⟨entries, hentries, rfl⟩ := map_eq_ok_iff.1 h
    rw [NameMap.ofList, get?_insertAll_eq_some_iff (mapM_eq_ok_iff.1 hentries)]
    exact or_iff_left fun hempty ↦ nomatch hempty.1

theorem readQuery_eq_error_iff {e : QueryError} : schema.readQuery query = .error e ↔
    query ≠ "" ∧ schema.FirstRefuses (segments query) e := by
  by_cases hquery : query = ""
  · subst hquery
    exact iff_of_false nofun fun h ↦ h.1 rfl
  · rw [readQuery_eq hquery, map_eq_error_iff, mapM_eq_error_iff, and_iff_right hquery]
    simp only [Prod.exists, entryOf_eq_ok_iff, entryOf_eq_error_iff, FirstRefuses]

/-- A query is read exactly if it follows the grammar. It gives to each name the value of its
last segment, and nothing to any other. If it is refused, it is for the first segment that is not
read. -/
theorem queries_follow_grammar (schema : Schema) (query : String) :
    ((∃ updates, schema.readQuery query = .ok updates) ↔ schema.Accepts query) ∧
      (∀ updates, schema.readQuery query = .ok updates ↔ schema.Accepts query ∧
        ∀ name value, updates.get? name = some value ↔
          schema.LastSets (segments query) name value) ∧
      ∀ e, schema.readQuery query = .error e ↔
        query ≠ "" ∧ schema.FirstRefuses (segments query) e := by
  refine ⟨exists_readQuery_iff, fun updates ↦ ⟨fun h ↦ ?_, ?_⟩, fun e ↦ readQuery_eq_error_iff⟩
  · exact ⟨exists_readQuery_iff.1 ⟨updates, h⟩, get?_of_readQuery h⟩
  · rintro ⟨haccepts, hvalues⟩
    obtain ⟨found, hfound⟩ := exists_readQuery_iff.2 haccepts
    have hsame : found = updates := NameMap.ext_get? fun name ↦ Option.ext fun value ↦ by
      rw [get?_of_readQuery hfound, hvalues]
    exact hsame ▸ hfound

example : radio.readQuery "mode=1&modem=&mode=3" =
    .ok (.ofList [("mode", .uint 3), ("modem", .text "")]) := by
  rfl

example : radio.readQuery "mode=1&volume&tone=2" = .error (.malformedPair "volume") := by
  rfl

/-! ## Arguments of a command line -/

/-- An argument that is a pair and can stand between ampersands. -/
structure IsArgument (argument : String) : Prop where
  count_eq : argument.toList.count '=' = 1
  no_ampersand : '&' ∉ argument.toList

theorem IsArgument.exists_pair (schema : Schema) {argument : String} (h : IsArgument argument) :
    ∃ pair, readPair? argument = .ok pair ∧
      schema.entryOf argument.toList = schema.readEntry pair.1 pair.2 := by
  obtain ⟨name, raw, hpair⟩ := exists_isPair h.count_eq
  have hname : '=' ∉ name.toList := (not_mem_sides (hpair.sides ▸ hpair.count_eq)).1
  refine ⟨(name, raw), ?_, schema.entryOf_of_isPair hpair⟩
  rw [readPair?, hpair.sides, cutFirst?_append hname]
  simp

/-- The segments of joined texts are these texts. -/
theorem segments_intercalate {texts : List String} (hne : texts ≠ [])
    (h : ∀ text ∈ texts, '&' ∉ text.toList) :
    segments ("&".intercalate texts) = texts.map String.toList := by
  rw [segments, String.toList_intercalate]
  exact List.splitOn_intercalate '&' (List.forall_mem_map.2 h) (mt List.map_eq_nil_iff.1 hne)

/-- Arguments split into pairs, and the pairs are read like the arguments as segments. -/
theorem exists_pairs (schema : Schema) {arguments : List String}
    (h : ∀ argument ∈ arguments, IsArgument argument) :
    ∃ pairs, arguments.mapM readPair? = .ok pairs ∧
      (pairs.mapM fun (name, raw) ↦ schema.readEntry name raw) =
        (arguments.map String.toList).mapM schema.entryOf := by
  induction arguments with
  | nil => exact ⟨[], rfl, rfl⟩
  | cons argument arguments ih =>
    obtain ⟨hargument, harguments⟩ := List.forall_mem_cons.1 h
    obtain ⟨pair, hpair, hentry⟩ := hargument.exists_pair schema
    obtain ⟨pairs, hpairs, hentries⟩ := ih harguments
    refine ⟨pair :: pairs, ?_, ?_⟩
    · rw [List.mapM_cons, hpair, hpairs]
      rfl
    · rw [List.map_cons, List.mapM_cons, List.mapM_cons, hentry, hentries]

/-- Joined arguments are read like the arguments one by one. -/
theorem readQuery_intercalate {arguments : List String}
    (h : ∀ argument ∈ arguments, IsArgument argument) :
    schema.readQuery ("&".intercalate arguments) =
      ((arguments.map String.toList).mapM schema.entryOf).map .ofList := by
  by_cases hnone : arguments = []
  · subst hnone
    rfl
  · have hsegments := segments_intercalate hnone fun argument hmem ↦ (h argument hmem).no_ampersand
    have hquery : "&".intercalate arguments ≠ "" := by
      intro hempty
      rw [hempty] at hsegments
      obtain ⟨argument, more, rfl⟩ := List.exists_cons_of_ne_nil hnone
      have hcount := (h argument List.mem_cons_self).count_eq
      rw [← (List.cons.inj hsegments).1] at hcount
      cases hcount
    rw [readQuery_eq hquery, hsegments]

/-- Arguments with one equals sign each and no ampersand are split, and the pairs come to the same
updates or the same refusal as the query that the arguments make. -/
theorem arguments_agree_with_query (schema : Schema) (arguments : List String)
    (h : ∀ argument ∈ arguments, IsArgument argument) :
    ∃ pairs, arguments.mapM readPair? = .ok pairs ∧
      schema.readPairs pairs = schema.readQuery ("&".intercalate arguments) := by
  obtain ⟨pairs, hpairs, hentries⟩ := exists_pairs schema h
  refine ⟨pairs, hpairs, ?_⟩
  calc schema.readPairs pairs
    _ = ((arguments.map String.toList).mapM schema.entryOf).map .ofList := by
      rw [readPairs, hentries]
    _ = schema.readQuery ("&".intercalate arguments) := (readQuery_intercalate h).symm

/-- Arguments with a name twice, without a name, and with a name that is not in the schema. -/
def wildArguments : List String :=
  ["mode=1", "modem=", "mode=3", "=", "volume=x"]

theorem wildArguments_agree : (∀ argument ∈ wildArguments, IsArgument argument) ∧
    ∃ pairs, wildArguments.mapM readPair? = .ok pairs ∧
      radio.readPairs pairs = radio.readQuery ("&".intercalate wildArguments) := by
  have harguments : ∀ argument ∈ wildArguments, IsArgument argument := by
    simp only [wildArguments, List.forall_mem_cons]
    exact ⟨⟨by decide, by decide⟩, ⟨by decide, by decide⟩, ⟨by decide, by decide⟩,
      ⟨by decide, by decide⟩, ⟨by decide, by decide⟩, nofun⟩
  exact ⟨harguments, radio.arguments_agree_with_query wildArguments harguments⟩

end Schema

end SignalFlow.Control
