import SignalFlow.NameMap

/-!
# Lookups in maps from names

What a map gives to a name after entries were put in.
-/

namespace SignalFlow.NameMap

variable {α β : Type}

theorem lookup_cons_eq (name other : String) (value : α) (entries : List (String × α)) :
    ((name, value) :: entries).lookup other =
      if other = name then some value else entries.lookup other := by
  rw [List.lookup_cons]
  by_cases h : other = name
  · rw [if_pos h, beq_iff_eq.2 h]
  · rw [if_neg h, beq_eq_false_iff_ne.2 h]

theorem lookup_of_forall_ne {name : String} {entries : List (String × α)}
    (h : ∀ e ∈ entries, name ≠ e.1) : entries.lookup name = none :=
  List.lookup_eq_none_iff.2 fun e he ↦ bne_iff_ne.2 (h e he)

theorem ext_entries {a b : NameMap α} (h : a.entries = b.entries) : a = b := by
  cases a
  exact (NameMap.mk.injEq ..).mpr h

theorem lookup_insertEntry (name other : String) (value : α) (entries : List (String × α)) :
    (insertEntry name value entries).lookup other =
      if other = name then some value else entries.lookup other := by
  induction entries with
  | nil => exact lookup_cons_eq name other value []
  | cons head rest ih =>
    obtain ⟨n, v⟩ := head
    unfold insertEntry
    split
    · exact lookup_cons_eq name other value _
    · split
      · next heq =>
        subst heq
        rw [lookup_cons_eq, lookup_cons_eq]
        split <;> rfl
      · next hne =>
        rw [lookup_cons_eq, lookup_cons_eq, ih]
        by_cases hn : other = n
        · rw [if_pos hn, if_pos hn, if_neg fun h ↦ hne (h.symm.trans hn)]
        · rw [if_neg hn, if_neg hn]

theorem get?_insert (m : NameMap α) (name other : String) (value : α) :
    (m.insert name value).get? other = if other = name then some value else m.get? other :=
  lookup_insertEntry name other value m.entries

theorem get?_empty (name : String) : (empty : NameMap α).get? name = none :=
  rfl

theorem mem_entries_iff (m : NameMap α) {name : String} {value : α} :
    (name, value) ∈ m.entries ↔ m.get? name = some value := by
  have hdistinct : m.entries.Pairwise fun a b ↦ a.1 ≠ b.1 := m.ascending.imp String.ne_of_lt
  rw [get?]
  generalize m.entries = entries at hdistinct
  induction entries with
  | nil => simp
  | cons head rest ih =>
    obtain ⟨n, v⟩ := head
    obtain ⟨hhead, hrest⟩ := List.pairwise_cons.1 hdistinct
    have htail : (name, value) ∈ rest ↔ rest.lookup name = some value := ih hrest
    rw [lookup_cons_eq, List.mem_cons, Prod.mk.injEq, htail]
    by_cases hname : name = n
    · subst hname
      simp [lookup_of_forall_ne hhead, eq_comm]
    · simp [hname]

/-- Maps that give the same to every name are the same. -/
theorem ext_get? {a b : NameMap α} (h : ∀ name, a.get? name = b.get? name) : a = b := by
  have hmem : ∀ e : String × α, e ∈ a.entries ↔ e ∈ b.entries := by
    rintro ⟨name, value⟩
    rw [mem_entries_iff, mem_entries_iff, h]
  have hnodup (m : NameMap α) : m.entries.Nodup :=
    List.nodup_iff_pairwise_ne.2 <| m.ascending.imp fun hlt heq ↦
      String.ne_of_lt hlt (congrArg Prod.fst heq)
  have hperm : a.entries.Perm b.entries :=
    (List.perm_ext_iff_of_nodup (hnodup a) (hnodup b)).2 hmem
  exact ext_entries <| hperm.eq_of_pairwise
    (fun _ _ _ _ hlt hgt ↦ absurd hgt (String.lt_asymm hlt)) a.ascending b.ascending

/-- Entries of different names that are put in are found behind. -/
theorem get?_insertAll (m : NameMap α) {entries : List (String × α)}
    (h : entries.Pairwise fun a b ↦ a.1 ≠ b.1) (name : String) :
    (m.insertAll entries).get? name = (entries.lookup name).or (m.get? name) := by
  induction entries generalizing m with
  | nil => rfl
  | cons head rest ih =>
    obtain ⟨n, v⟩ := head
    obtain ⟨hhead, hrest⟩ := List.pairwise_cons.1 h
    change ((m.insert n v).insertAll rest).get? name = _
    rw [ih (m.insert n v) hrest, get?_insert, lookup_cons_eq]
    by_cases hname : name = n
    · subst hname
      rw [lookup_of_forall_ne hhead, if_pos rfl, if_pos rfl, Option.none_or, Option.some_or]
    · rw [if_neg hname, if_neg hname]

/-- To insert entries one by one as they are read is to insert those that were read. -/
theorem foldlM_insert {ε : Type} (act : α → Except ε (String × β)) (as : List α)
    (m : NameMap β) : as.foldlM (fun m a ↦ (act a).map fun e ↦ m.insert e.1 e.2) m =
      (as.mapM act).map m.insertAll := by
  induction as generalizing m with
  | nil => rfl
  | cons a as ih =>
    rw [List.foldlM_cons, List.mapM_cons]
    cases act a with
    | error e => rfl
    | ok entry =>
      change as.foldlM _ (m.insert entry.1 entry.2) = _
      rw [ih]
      cases as.mapM act <;> rfl

/-- A map whose values were changed gives the changed values. -/
theorem get?_ofList_map (m : NameMap α) (change : α → β) (name : String) :
    (ofList (m.entries.map fun e ↦ (e.1, change e.2))).get? name =
      (m.get? name).map change := by
  have hdistinct : (m.entries.map fun e ↦ (e.1, change e.2)).Pairwise fun a b ↦ a.1 ≠ b.1 :=
    List.pairwise_map.2 (m.ascending.imp fun hlt ↦ String.ne_of_lt hlt)
  rw [ofList, get?_insertAll empty hdistinct, get?_empty, Option.or_none, get?]
  generalize m.entries = entries
  induction entries with
  | nil => rfl
  | cons head rest ih =>
    rw [List.map_cons, lookup_cons_eq, lookup_cons_eq, ih]
    split <;> rfl

theorem insertEntry_of_forall_lt {name : String} {value : α} {entries : List (String × α)}
    (h : ∀ e ∈ entries, e.1 < name) :
    insertEntry name value entries = entries ++ [(name, value)] := by
  induction entries with
  | nil => rfl
  | cons head rest ih =>
    obtain ⟨hhead, hrest⟩ := List.forall_mem_cons.1 h
    have hne : name ≠ head.1 := (String.ne_of_lt hhead).symm
    calc
      insertEntry name value (head :: rest) = head :: insertEntry name value rest := by
        rw [insertEntry, if_neg (String.lt_asymm hhead), if_neg hne]
      _ = head :: rest ++ [(name, value)] := by rw [ih hrest, List.cons_append]

/-- Entries in ascending order are put in as they come. -/
theorem entries_insertAll (m : NameMap α) {entries : List (String × α)}
    (h : (m.entries ++ entries).Pairwise fun a b ↦ a.1 < b.1) :
    (m.insertAll entries).entries = m.entries ++ entries := by
  induction entries generalizing m with
  | nil => exact (List.append_nil _).symm
  | cons head rest ih =>
    have hlast : (m.insert head.1 head.2).entries = m.entries ++ [head] :=
      insertEntry_of_forall_lt fun e he ↦
        (List.pairwise_append.1 h).2.2 e he head List.mem_cons_self
    have hnext := ih (m.insert head.1 head.2) (by rwa [hlast, List.append_assoc])
    rw [hlast, List.append_assoc] at hnext
    exact hnext

theorem ofList_entries (m : NameMap α) : ofList m.entries = m :=
  ext_entries (entries_insertAll empty m.ascending)

/-- A map agrees with itself if each of its values is related to itself. -/
theorem agree_self {related : α → α → Bool} {m : NameMap α}
    (h : ∀ e ∈ m.entries, related e.2 e.2 = true) : agree related m m = true := by
  rw [agree, beq_self_eq_true, Bool.true_and, List.zip, List.zipWith_self, List.all_map]
  exact List.all_eq_true.2 h

end SignalFlow.NameMap
