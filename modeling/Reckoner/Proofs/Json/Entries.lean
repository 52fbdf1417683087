import Mathlib
import Reckoner.Json.Reader
import Reckoner.Proofs.Outcome

/-!
# Entries laid over others

What it means to lay entries over others: the old keys keep their places and take the new values, and entries with
new keys follow in their own order (`overlaid`). Putting entries in one by one comes to the same as long as no key
comes twice (`foldl_insertBy_eq`); an object is what its entries make of nothing, so entries with different keys are
an object as they stand (`objectOf_of_nodup`), and in an object that was read no key comes twice (`nodup_of_read`).
-/

namespace Reckoner

namespace Json

section Find

variable {κ α : Type} {same : κ → κ → Bool} {key k : κ} {value v : α} {entries base : List (κ × α)}

lemma findBy?_nil : findBy? same key ([] : List (κ × α)) = none :=
  rfl

lemma findBy?_cons :
    findBy? same key ((k, v) :: entries) = if same k key then some v else findBy? same key entries := by
  rw [findBy?, List.find?_cons]
  cases same k key <;> rfl

/-- Looking up a key takes no notice of what the keys are made from. -/
lemma findBy?_map {ι : Type} (f : ι → κ) (i : ι) (entries : List (ι × α)) :
    findBy? same (f i) (entries.map fun entry => (f entry.1, entry.2)) =
      findBy? (fun i j => same (f i) (f j)) i entries := by
  rw [findBy?, findBy?, List.find?_map, Option.map_map]
  rfl

/-- Putting a value under a key loses no key. -/
lemma isSome_findBy?_insertBy (h : (findBy? same key base).isSome = true) :
    (findBy? same key (insertBy same k v base)).isSome = true := by
  induction base with
  | nil => cases h
  | cons entry base ih =>
    rw [insertBy]
    rw [findBy?_cons] at h
    split
    · rw [findBy?_cons]
      split at h
      · next hkey => rw [if_pos hkey]; rfl
      · next hkey => rw [if_neg hkey]; exact h
    · rw [findBy?_cons]
      split at h
      · next hkey => rw [if_pos hkey]; rfl
      · next hkey => rw [if_neg hkey]; exact ih h

/-- Entries laid over others: the old keys keep their places and take the new values, and entries with new keys
follow. -/
def overlaid (same : κ → κ → Bool) (base entries : List (κ × α)) : List (κ × α) :=
  base.map (fun entry => (entry.1, (findBy? same entry.1 entries).getD entry.2)) ++
    entries.filter fun entry => (findBy? same entry.1 base).isNone

lemma overlaid_map {ι : Type} (f : ι → κ) (base entries : List (ι × α)) :
    overlaid same (base.map fun entry => (f entry.1, entry.2)) (entries.map fun entry => (f entry.1, entry.2)) =
      (overlaid (fun i j => same (f i) (f j)) base entries).map fun entry => (f entry.1, entry.2) := by
  rw [overlaid, overlaid, List.map_append, List.map_map, List.map_map, List.filter_map]
  simp only [Function.comp_def, findBy?_map]

end Find

section Names

variable {key : List CodePoint} {v : Value} {entries base : List (List CodePoint × Value)}

lemma findBy?_eq_none_iff : findBy? (· == ·) key entries = none ↔ key ∉ entries.map Prod.fst := by
  induction entries with
  | nil => simp [findBy?_nil]
  | cons entry entries ih =>
    rw [findBy?_cons, List.map_cons, List.mem_cons, not_or, ← ih]
    by_cases h : entry.1 = key
    · simp [h]
    · simp [h, Ne.symm h]

/-- Putting a value under a new key adds an entry at the end. -/
lemma insertBy_of_notMem (h : key ∉ base.map Prod.fst) : insertBy (· == ·) key v base = base ++ [(key, v)] := by
  induction base with
  | nil => rfl
  | cons entry base ih =>
    rw [List.map_cons, List.mem_cons, not_or] at h
    rw [insertBy, if_neg (by simpa using Ne.symm h.1), ih h.2, List.cons_append]

/-- The value under a key that is not there is nowhere to change. -/
lemma map_value_of_notMem (h : key ∉ base.map Prod.fst) :
    base.map (fun entry => (entry.1, if entry.1 = key then v else entry.2)) = base := by
  refine (List.map_congr_left fun entry hentry => ?_).trans (List.map_id base)
  have hne : entry.1 ≠ key := fun heq => h (heq ▸ List.mem_map_of_mem hentry)
  rw [if_neg hne, id_eq]

/-- Putting a value under a key that is there changes the value in its place. -/
lemma insertBy_of_mem (hbase : (base.map Prod.fst).Nodup) (h : key ∈ base.map Prod.fst) :
    insertBy (· == ·) key v base = base.map fun entry => (entry.1, if entry.1 = key then v else entry.2) := by
  induction base with
  | nil => cases h
  | cons entry base ih =>
    rw [List.map_cons, List.nodup_cons] at hbase
    rw [insertBy, List.map_cons]
    by_cases hkey : entry.1 = key
    · rw [if_pos (by simpa using hkey), if_pos hkey, map_value_of_notMem (hkey ▸ hbase.1)]
    · rw [List.map_cons, List.mem_cons] at h
      have hmem := h.resolve_left (Ne.symm hkey)
      rw [if_neg (by simpa using hkey), if_neg hkey, ih hbase.2 hmem]

/-- The keys stay, and a new one comes last. -/
lemma keys_insertBy (hbase : (base.map Prod.fst).Nodup) :
    (insertBy (· == ·) key v base).map Prod.fst =
      base.map Prod.fst ++ if key ∈ base.map Prod.fst then [] else [key] := by
  split
  · next h =>
    rw [insertBy_of_mem hbase h, List.map_map, List.append_nil]
    rfl
  · next h =>
    rw [insertBy_of_notMem h, List.map_append]
    rfl

lemma nodup_insertBy (hbase : (base.map Prod.fst).Nodup) :
    ((insertBy (· == ·) key v base).map Prod.fst).Nodup := by
  rw [keys_insertBy hbase]
  split
  · rwa [List.append_nil]
  · next h => exact hbase.append (List.nodup_singleton key) (by simpa using h)

lemma overlaid_eq (base entries : List (List CodePoint × Value)) :
    overlaid (· == ·) base entries =
      base.map (fun entry => (entry.1, (findBy? (· == ·) entry.1 entries).getD entry.2)) ++
        entries.filter fun entry => entry.1 ∉ base.map Prod.fst := by
  rw [overlaid]
  congr 2
  funext entry
  rw [Bool.eq_iff_iff, Option.isNone_iff_eq_none, findBy?_eq_none_iff, decide_eq_true_iff]

/-- A value that is to be changed twice takes the later one. -/
lemma getD_findBy?_cons (h : key ∉ entries.map Prod.fst) (entry : List CodePoint × Value) :
    (findBy? (· == ·) entry.1 ((key, v) :: entries)).getD entry.2 =
      (findBy? (· == ·) entry.1 entries).getD (if entry.1 = key then v else entry.2) := by
  rw [findBy?_cons]
  by_cases hkey : entry.1 = key
  · rw [hkey, findBy?_eq_none_iff.mpr h]
    simp
  · simp [hkey, Ne.symm hkey]

/-- Of entries that are laid over others, the first may be put in before the rest. -/
lemma overlaid_cons (hbase : (base.map Prod.fst).Nodup) (h : key ∉ entries.map Prod.fst) :
    overlaid (· == ·) base ((key, v) :: entries) = overlaid (· == ·) (insertBy (· == ·) key v base) entries := by
  rw [overlaid_eq, overlaid_eq, keys_insertBy hbase]
  simp only [getD_findBy?_cons h]
  by_cases hmem : key ∈ base.map Prod.fst
  · rw [insertBy_of_mem hbase hmem, List.map_map, if_pos hmem, List.append_nil,
      List.filter_cons_of_neg (by simpa using hmem)]
    rfl
  · have hold : ∀ entry ∈ base, entry.1 ≠ key := fun entry he heq => hmem (heq ▸ List.mem_map_of_mem he)
    have hnew : ∀ entry ∈ entries, entry.1 ≠ key := fun entry he heq => h (heq ▸ List.mem_map_of_mem he)
    rw [insertBy_of_notMem hmem, if_neg hmem, List.map_append, List.map_singleton, findBy?_eq_none_iff.mpr h,
      Option.getD_none, List.filter_cons_of_pos (by simpa using hmem), List.append_assoc, List.singleton_append]
    congr 1
    · exact List.map_congr_left fun entry he => by rw [if_neg (hold entry he)]
    · congr 1
      exact List.filter_congr fun entry he => by simp [hnew entry he]

/-- Putting in entries with different keys one after the other lays them over what is there. -/
theorem foldl_insertBy_eq (hbase : (base.map Prod.fst).Nodup) (h : (entries.map Prod.fst).Nodup) :
    entries.foldl (fun l entry => insertBy (· == ·) entry.1 entry.2 l) base = overlaid (· == ·) base entries := by
  induction entries generalizing base with
  | nil => simp [overlaid, findBy?_nil]
  | cons entry entries ih =>
    rw [List.map_cons, List.nodup_cons] at h
    rw [List.foldl_cons, ih (nodup_insertBy hbase) h.2, overlaid_cons hbase h.1]

/-- Entries with different keys are an object as they stand. -/
theorem objectOf_of_nodup (h : (entries.map Prod.fst).Nodup) : objectOf entries = entries := by
  have hnil : (([] : List (List CodePoint × Value)).map Prod.fst).Nodup := List.nodup_nil
  rw [objectOf, foldl_insertBy_eq hnil h, overlaid, List.map_nil, List.nil_append]
  exact List.filter_eq_self.mpr fun _ _ => rfl

/-- No key comes twice in what was put together from entries. -/
theorem nodup_objectOf (entries : List (List CodePoint × Value)) : ((objectOf entries).map Prod.fst).Nodup := by
  have hstart : (([] : List (List CodePoint × Value)).map Prod.fst).Nodup := List.nodup_nil
  rw [objectOf]
  generalize ([] : List (List CodePoint × Value)) = base at hstart
  induction entries generalizing base with
  | nil => exact hstart
  | cons entry entries ih => exact ih _ (nodup_insertBy hstart)

end Names

section Reader

/-- If an object was read last, then no key comes twice in it. -/
def State.Distinct (state : State) : Prop :=
  ∀ entries, state.next = .after (.object entries) → (entries.map Prod.fst).Nodup

variable {depth : ℕ} {state state' : State} {frames : List Frame} {t : Token}

/-- A value begins with a scalar, which is all of it, or with the start of a list or an object. -/
lemma begin_cases (h : begin depth frames t = .ok state) :
    (∃ s, state = ⟨frames, .after (.scalar s)⟩) ∨ state = ⟨.list [] :: frames, .firstItem⟩ ∨
      state = ⟨frames, .firstKey []⟩ := by
  cases t with
  | openList =>
    rw [begin, enter] at h
    split at h
    · exact .inr (.inl (Except.ok.inj h).symm)
    · cases h
  | openObject =>
    rw [begin, enter] at h
    split at h
    · exact .inr (.inr (Except.ok.inj h).symm)
    · cases h
  | scalar s => exact .inl ⟨s, (Except.ok.inj h).symm⟩
  | integer negative digits =>
    obtain ⟨s, -, h⟩ := Outcome.bind_eq_ok.mp h
    exact .inl ⟨s, (Except.ok.inj h).symm⟩
  | closeList => cases h
  | closeObject => cases h
  | comma => cases h
  | colon => cases h
  | invalid => cases h

lemma begin_distinct (h : begin depth frames t = .ok state) : state.Distinct := by
  intro entries hnext
  obtain ⟨s, rfl⟩ | rfl | rfl := begin_cases h <;> cases hnext

/-- Whatever was read before, an object that a token ends has its keys once. -/
lemma step_distinct (h : step depth state t = .ok state') : state'.Distinct := by
  rw [step.eq_def] at h
  split at h
  case h_2 => exact begin_distinct h
  case h_3 => exact begin_distinct h
  case h_4 =>
    rintro entries hnext
    cases h
    cases hnext
    exact List.nodup_nil
  case h_11 =>
    rintro entries hnext
    cases h
    cases hnext
    exact nodup_objectOf _
  -- the other tokens leave no object behind
  all_goals
    rintro entries hnext
    cases h <;> cases hnext

lemma foldlM_distinct {ts : List Token} (hstart : state.Distinct) (h : ts.foldlM (step depth) state = .ok state') :
    state'.Distinct := by
  induction ts generalizing state with
  | nil =>
    cases h
    exact hstart
  | cons t ts ih =>
    rw [List.foldlM_cons] at h
    obtain ⟨next, hstep, hrest⟩ := Outcome.bind_eq_ok.mp h
    exact ih (step_distinct hstep) hrest

/-- No key comes twice in an object that is read. -/
theorem nodup_of_read {text : String} {entries : List (List CodePoint × Value)}
    (h : read depth text = .ok (.object entries)) :
    (entries.map Prod.fst).Nodup := by
  obtain ⟨state, hrun, hend⟩ := Outcome.bind_eq_ok.mp h
  have hstart : State.Distinct ⟨[], .value⟩ := fun _ hnext => by cases hnext
  split at hend
  · next v =>
    cases hend
    exact foldlM_distinct hstart hrun entries rfl
  · cases hend

end Reader

end Json

end Reckoner
