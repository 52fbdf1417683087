import Mathlib
import Reckoner.Console
import Reckoner.Proofs.Console.Transcript
import Reckoner.Proofs.Outcome
import Reckoner.Proofs.Settings.Overlay

/-!
# Loading settings

What comes of loading is ruled by where the system finds the path and what the file there holds (`Store.Loads`,
`Store.load_eq_iff`). Nothing at the path and a text that is not JSON leave the defaults; an object, and a list of
pairs as well, are laid over them; anything else is a fault. Whatever is laid over the defaults, none of them is lost
(`Settings.isSome_get?_of_overlay`), and every problem is answered, by a text or by a failure that names it, just when
the settings can be loaded (`Store.load_of_state`).
-/

namespace Reckoner

open Json (Scalar Value)

namespace Settings

section Pairs

variable {settings : Settings} {part : Value} {pair : Scalar × Value} {parts rest : List Value}
  {pairs : List (Scalar × Value)} {fault : SettingsFault} {index : ℕ}

/-- A key and a value: two parts, of which the first is a scalar. -/
def IsPair (part : Value) (pair : Scalar × Value) : Prop :=
  parts? part = some [.scalar pair.1, pair.2]

/-- Why a part of what is stored, at the given position, is no pair. -/
inductive PairFault (index : ℕ) (part : Value) : SettingsFault → Prop where
  | notSequence :
    parts? part = none →
    PairFault index part (.entryNotSequence index)
  | length {l} :
    parts? part = some l →
    l.length ≠ 2 →
    PairFault index part (.entryLength index l.length)
  | key {key value} :
    parts? part = some [key, value] →
    (∀ s, key ≠ .scalar s) →
    PairFault index part (.keyNotScalar (typeName key))

/-- The fault of a part further behind names its position. -/
lemma PairFault.exists_at {index : ℕ} (h : PairFault index part fault) (index' : ℕ) :
    ∃ fault', PairFault index' part fault' := by
  cases h with
  | notSequence h => exact ⟨_, .notSequence h⟩
  | length h hlength => exact ⟨_, .length h hlength⟩
  | key h hkey => exact ⟨_, .key h hkey⟩

/-- Every part is a pair or has a fault. -/
lemma exists_pair (index : ℕ) (part : Value) : (∃ pair, IsPair part pair) ∨ ∃ fault, PairFault index part fault := by
  cases hparts : parts? part with
  | none => exact .inr ⟨_, .notSequence hparts⟩
  | some l =>
    by_cases hlength : l.length = 2
    · obtain ⟨key, value, rfl⟩ := List.length_eq_two.mp hlength
      cases key with
      | scalar s => exact .inl ⟨(s, value), hparts⟩
      | list items => exact .inr ⟨_, .key hparts fun s => by simp⟩
      | object entries => exact .inr ⟨_, .key hparts fun s => by simp⟩
    · exact .inr ⟨_, .length hparts hlength⟩

lemma insertPair_of_isPair (h : IsPair part pair) :
    settings.insertPair index part = .ok (settings.insert pair.1 pair.2) := by
  rw [insertPair, h]

lemma insertPair_of_fault (h : PairFault index part fault) : settings.insertPair index part = .error fault := by
  cases h with
  | notSequence h => rw [insertPair, h]
  | @length l h hlength =>
    rw [insertPair, h]
    match l, hlength with
    | [], _ => rfl
    | [_], _ => rfl
    | _ :: _ :: _ :: _, _ => rfl
  | @key key value h hkey =>
    rw [insertPair, h]
    cases key with
    | scalar s => exact absurd rfl (hkey s)
    | list items => rfl
    | object entries => rfl

/-- The settings with one pair after the other put in. -/
def insertAll (settings : Settings) (pairs : List (Scalar × Value)) : Settings :=
  pairs.foldl (fun settings pair => settings.insert pair.1 pair.2) settings

/-- Pairs are put in up to the first part that is none. -/
lemma insertPairs_append (h : List.Forall₂ IsPair parts pairs) :
    settings.insertPairs index (parts ++ rest) =
      (settings.insertAll pairs).insertPairs (index + parts.length) rest := by
  induction h generalizing settings index with
  | nil => rfl
  | @cons part pair parts pairs hpair _ ih =>
    rw [List.cons_append, insertPairs, insertPair_of_isPair hpair, Outcome.ok_bind, ih, List.length_cons,
      Nat.add_right_comm, Nat.add_assoc]
    rfl

/-- The parts are all pairs, or there is a first one that is none. -/
lemma exists_pairs (parts : List Value) :
    (∃ pairs, List.Forall₂ IsPair parts pairs) ∨
      ∃ before part behind pairs fault, parts = before ++ part :: behind ∧ List.Forall₂ IsPair before pairs ∧
        PairFault before.length part fault := by
  induction parts with
  | nil => exact .inl ⟨[], .nil⟩
  | cons part parts ih =>
    obtain ⟨pair, hpair⟩ | ⟨fault, hfault⟩ := exists_pair 0 part
    · obtain ⟨pairs, hpairs⟩ | ⟨before, bad, behind, pairs, fault, rfl, hpairs, hfault⟩ := ih
      · exact .inl ⟨pair :: pairs, .cons hpair hpairs⟩
      · obtain ⟨fault', hfault'⟩ := hfault.exists_at (before.length + 1)
        exact .inr ⟨part :: before, bad, behind, pair :: pairs, fault', rfl, .cons hpair hpairs, hfault'⟩
    · exact .inr ⟨[], part, parts, [], fault, rfl, .nil, hfault⟩

end Pairs

/-- What comes of laying a stored value over the defaults. -/
inductive Lays (stored : Value) : Except SettingsFault Settings → Prop where
  | object {entries} :
    stored = .object entries →
    Lays stored (.ok ((ofEntries entries).laidOver defaults))
  | pairs {parts pairs} :
    (∀ entries, stored ≠ .object entries) →
    parts? stored = some parts →
    List.Forall₂ IsPair parts pairs →
    Lays stored (.ok (defaults.insertAll pairs))
  | noPair {before part behind pairs fault} :
    (∀ entries, stored ≠ .object entries) →
    parts? stored = some (before ++ part :: behind) →
    List.Forall₂ IsPair before pairs →
    PairFault before.length part fault →
    Lays stored (.error fault)
  | noParts :
    parts? stored = none →
    Lays stored (.error (.notEntries (typeName stored)))

variable {stored : Value} {outcome : Except SettingsFault Settings} {settings after : Settings} {name : List CodePoint}

lemma overlay_of_parts {parts : List Value} (hobject : ∀ entries, stored ≠ .object entries)
    (h : parts? stored = some parts) : settings.overlay stored = settings.insertPairs 0 parts := by
  rw [overlay.eq_def]
  split
  · next entries => exact absurd rfl (hobject entries)
  · rw [h]

lemma overlay_of_lays (hkeys : ∀ entries, stored = .object entries → (entries.map Prod.fst).Nodup)
    (h : Lays stored outcome) : defaults.overlay stored = outcome := by
  cases h with
  | object hstored =>
    subst hstored
    exact overlay_defaults (hkeys _ rfl)
  | @pairs parts _ hobject hparts hpairs =>
    rw [overlay_of_parts hobject hparts, ← List.append_nil parts, insertPairs_append hpairs]
    rfl
  | noPair hobject hparts hpairs hfault =>
    rw [overlay_of_parts hobject hparts, insertPairs_append hpairs, insertPairs, Nat.zero_add,
      insertPair_of_fault hfault]
    rfl
  | noParts hparts =>
    cases stored with
    | object entries => cases hparts
    | list items => cases hparts
    | scalar s => rw [overlay, hparts]; simp

lemma exists_lays (stored : Value) : ∃ outcome, Lays stored outcome := by
  by_cases hobject : ∃ entries, stored = .object entries
  · obtain ⟨entries, rfl⟩ := hobject
    exact ⟨_, .object rfl⟩
  · rw [not_exists] at hobject
    cases hparts : parts? stored with
    | none => exact ⟨_, .noParts hparts⟩
    | some parts =>
      obtain ⟨pairs, hpairs⟩ | ⟨before, part, behind, pairs, fault, rfl, hpairs, hfault⟩ := exists_pairs parts
      · exact ⟨_, .pairs hobject hparts hpairs⟩
      · exact ⟨_, .noPair hobject hparts hpairs hfault⟩

lemma isSome_get?_insert {key : Scalar} {value : Value} (h : (settings.get? name).isSome = true) :
    ((settings.insert key value).get? name).isSome = true :=
  Json.isSome_findBy?_insertBy h

lemma isSome_get?_insertPairs {index : ℕ} {parts : List Value} (h : (settings.get? name).isSome = true)
    (hafter : settings.insertPairs index parts = .ok after) : (after.get? name).isSome = true := by
  induction parts generalizing settings index with
  | nil =>
    cases hafter
    exact h
  | cons part parts ih =>
    obtain ⟨next, hnext, hrest⟩ := Outcome.bind_eq_ok.mp hafter
    obtain ⟨pair, hpair⟩ | ⟨fault, hfault⟩ := exists_pair index part
    · rw [insertPair_of_isPair hpair, Except.ok.injEq] at hnext
      subst hnext
      exact ih (isSome_get?_insert h) hrest
    · rw [insertPair_of_fault hfault] at hnext
      cases hnext

/-- Whatever is laid over settings, none of them is lost. -/
theorem isSome_get?_of_overlay (h : (settings.get? name).isSome = true)
    (hafter : settings.overlay stored = .ok after) : (after.get? name).isSome = true := by
  rw [overlay.eq_def] at hafter
  split at hafter
  · next entries =>
    cases hafter
    induction entries generalizing settings with
    | nil => exact h
    | cons entry entries ih => exact ih (isSome_get?_insert h)
  · split at hafter
    · exact isSome_get?_insertPairs h hafter
    · cases hafter

lemma isSome_get?_defaults : ∀ entry ∈ defaultEntries, (defaults.get? entry.1).isSome = true := by
  decide

end Settings

namespace Store

open Settings (Lays)

variable {File : Type} [DecidableEq File]

/-- What comes of loading the settings, by what the system finds at the path. -/
inductive Loads (store : Store File) (system : System File) : Except SettingsFault Settings → Prop where
  | missing {obstacle} :
    store.find system .reading = .error (.unreachable obstacle) →
    obstacle.isMissing = true →
    Loads store system (.ok .defaults)
  | blocked {fault} :
    store.find system .reading = .error fault →
    (∀ obstacle, fault = .unreachable obstacle → obstacle.isMissing = false) →
    Loads store system (.error fault)
  | absent {file} :
    store.find system .reading = .ok file →
    store.files.lookup file = none →
    Loads store system (.ok .defaults)
  | malformed {file text} :
    store.find system .reading = .ok file →
    store.files.lookup file = some text →
    Json.read system.depth text = .error .malformed →
    Loads store system (.ok .defaults)
  | tooLong {file text digits} :
    store.find system .reading = .ok file →
    store.files.lookup file = some text →
    Json.read system.depth text = .error (.integerTooLong digits) →
    Loads store system (.error (.integerTooLong digits))
  | tooDeep {file text nesting} :
    store.find system .reading = .ok file →
    store.files.lookup file = some text →
    Json.read system.depth text = .error (.tooDeep nesting) →
    Loads store system (.error (.tooDeep nesting))
  | read {file text stored outcome} :
    store.find system .reading = .ok file →
    store.files.lookup file = some text →
    Json.read system.depth text = .ok stored →
    Lays stored outcome →
    Loads store system outcome

variable {store : Store File} {system : System File} {outcome : Except SettingsFault Settings} {settings : Settings}

lemma load_of_loads (h : Loads store system outcome) : store.load system = outcome := by
  cases h with
  | missing hfind hmissing =>
    rw [load, hfind]
    exact if_pos hmissing
  | @blocked fault hfind hfault =>
    rw [load, hfind]
    split
    · next h => cases h
    · next obstacle h =>
      rw [Except.error.inj h, if_neg (by simp [hfault obstacle (Except.error.inj h)])]
    · next h => rw [Except.error.inj h]
  | absent hfind hfile => rw [load_of_find hfind, hfile]
  | malformed hfind hfile hread => rw [load_of_text hfind hfile, settingsOf, hread]
  | tooLong hfind hfile hread => rw [load_of_text hfind hfile, settingsOf, hread]
  | tooDeep hfind hfile hread => rw [load_of_text hfind hfile, settingsOf, hread]
  | read hfind hfile hread hlays =>
    rw [load_of_text hfind hfile, settingsOf, hread]
    refine Settings.overlay_of_lays (fun entries hstored => ?_) hlays
    subst hstored
    exact Json.nodup_of_read hread

lemma exists_loads (store : Store File) (system : System File) : ∃ outcome, Loads store system outcome := by
  cases hfind : store.find system .reading with
  | error fault =>
    by_cases hmissing : ∃ obstacle, fault = .unreachable obstacle ∧ obstacle.isMissing = true
    · obtain ⟨obstacle, rfl, hmissing⟩ := hmissing
      exact ⟨_, .missing hfind hmissing⟩
    · refine ⟨_, .blocked hfind fun obstacle hobstacle => ?_⟩
      rw [← Bool.not_eq_true]
      exact fun h => hmissing ⟨obstacle, hobstacle, h⟩
  | ok file =>
    cases hfile : store.files.lookup file with
    | none => exact ⟨_, .absent hfind hfile⟩
    | some text =>
      cases hread : Json.read system.depth text with
      | ok stored =>
        obtain ⟨outcome, hlays⟩ := Settings.exists_lays stored
        exact ⟨outcome, .read hfind hfile hread hlays⟩
      | error trouble =>
        cases trouble with
        | malformed => exact ⟨_, .malformed hfind hfile hread⟩
        | integerTooLong digits => exact ⟨_, .tooLong hfind hfile hread⟩
        | tooDeep nesting => exact ⟨_, .tooDeep hfind hfile hread⟩

/-- Loading is ruled by what the system finds at the path. -/
theorem load_eq_iff : store.load system = outcome ↔ Loads store system outcome := by
  refine ⟨fun h => ?_, load_of_loads⟩
  obtain ⟨outcome', hloads⟩ := exists_loads store system
  rwa [← h, load_of_loads hloads]

/-- No default is lost by loading. -/
lemma isSome_get?_of_load (h : store.load system = .ok settings) :
    ∀ entry ∈ Settings.defaultEntries, (settings.get? entry.1).isSome = true := by
  intro entry hentry
  have hdefault := Settings.isSome_get?_defaults entry hentry
  cases load_eq_iff.mp h with
  | missing => exact hdefault
  | absent => exact hdefault
  | malformed => exact hdefault
  | read hfind hfile hread hlays =>
    rw [load_of_text hfind hfile, settingsOf, hread] at h
    exact Settings.isSome_get?_of_overlay hdefault h

end Store

namespace Display

variable {settings : Settings} {problem : String} {f : Failure}

lemma equation_of_renderFor {x : Float} (h : renderFor settings problem x = .error f) : f.equation = some problem := by
  obtain ⟨fault, -, rfl⟩ := Outcome.mapError_eq_error.mp h
  rfl

/-- A failure of a problem names the problem. -/
theorem equation_of_calculate (h : calculate settings problem = .error f) : f.equation = some problem := by
  rw [calculate] at h
  split at h
  · obtain hsolve | ⟨solution, -, h⟩ := Outcome.bind_eq_error.mp h
    · obtain ⟨g, -, rfl⟩ := Outcome.mapError_eq_error.mp hsolve
      rfl
    · split at h
      · cases h
      · split at h
        · cases h
        · obtain hrender | ⟨shown, -, h⟩ := Outcome.bind_eq_error.mp h
          · exact equation_of_renderFor hrender
          · cases h
  · obtain hvalue | ⟨value, -, h⟩ := Outcome.bind_eq_error.mp h
    · obtain ⟨cause, -, rfl⟩ := Outcome.mapError_eq_error.mp hvalue
      rfl
    · obtain hrender | ⟨shown, -, h⟩ := Outcome.bind_eq_error.mp h
      · exact equation_of_renderFor hrender
      · cases h

end Display

/-- A system with one directory for all files. The directory itself is no file, and nothing is below it. -/
def System.oneDirectory : System String where
  find _ _ path :=
    if path = "." then .error ⟨21, "Is a directory", some path⟩
    else if '/' ∈ path.toList then .error ⟨2, "No such file or directory", some path⟩
    else .ok path
  breakOff _ _ := none
  depth := 900

namespace Store

variable {File : Type} [DecidableEq File] {store : Store File} {system : System File}

/-- A problem is answered with the settings as they are loaded: by a text, or by a failure that names the problem. -/
def Answers (store : Store File) (system : System File) (problem : String) : Prop :=
  (∃ text, Console.calculate (store.load system) problem = .ok text) ∨
    ∃ f : Failure, Console.calculate (store.load system) problem = .error (.failure f) ∧ f.equation = some problem

lemma answers_iff (problem : String) : store.Answers system problem ↔ ∃ settings, store.load system = .ok settings := by
  rw [Answers]
  cases hload : store.load system with
  | error fault => simp [Console.calculate, Except.mapError]
  | ok settings =>
    rw [Console.calculate_eq]
    cases hanswer : Display.calculate settings problem with
    | ok text => exact ⟨fun _ => ⟨settings, rfl⟩, fun _ => .inl ⟨text, rfl⟩⟩
    | error f =>
      have hequation := Display.equation_of_calculate hanswer
      exact ⟨fun _ => ⟨settings, rfl⟩, fun _ => .inr ⟨f, rfl, hequation⟩⟩

/-- Where loading is a fault, there are no settings and no answers. -/
lemma not_answers_of_fault {fault : SettingsFault} (h : store.load system = .error fault) (problem : String) :
    (∀ settings, store.load system ≠ .ok settings) ∧ ¬store.Answers system problem := by
  have hload : ∀ settings, store.load system ≠ .ok settings := by simp [h]
  refine ⟨hload, fun hanswers => ?_⟩
  obtain ⟨settings, hsettings⟩ := (answers_iff problem).mp hanswers
  exact hload settings hsettings

/-- Loading is ruled by what the system finds at the path, the settings that are loaded have every default, and a
problem is answered just when some are loaded. -/
theorem load_of_state (store : Store File) (system : System File) :
    (∀ outcome, store.load system = outcome ↔ Loads store system outcome) ∧
      (∀ settings, Loads store system (.ok settings) →
        ∀ entry ∈ Settings.defaultEntries, (settings.get? entry.1).isSome = true) ∧
      ∀ problem, store.Answers system problem ↔ ∃ settings, Loads store system (.ok settings) := by
  refine ⟨fun outcome => load_eq_iff, fun settings h => isSome_get?_of_load (load_eq_iff.mpr h), fun problem => ?_⟩
  rw [answers_iff]
  exact exists_congr fun settings => load_eq_iff

/-- A list of pairs in the settings file is laid over the defaults, and problems are answered. -/
theorem load_of_state_pairs :
    let store : Store String := ⟨.ofText "config.json", [("config.json", "[[\"debug\", true], [1, \"ab\"]]")]⟩
    let settings := Settings.defaults.insertAll
      [(.text "debug", .scalar (.bool true)), (.int 1, .scalar (.text "ab"))]
    Loads store .oneDirectory (.ok settings) ∧ store.load .oneDirectory = .ok settings ∧
      (∀ entry ∈ Settings.defaultEntries, (settings.get? entry.1).isSome = true) ∧
      store.Answers .oneDirectory "1+1" := by
  intro store settings
  have hfind : store.find .oneDirectory .reading = .ok "config.json" := by decide +kernel
  have hread : Json.read System.oneDirectory.depth "[[\"debug\", true], [1, \"ab\"]]" =
      .ok (.list [.list [.scalar (.text "debug"), .scalar (.bool true)],
        .list [.scalar (.int 1), .scalar (.text "ab")]]) := rfl
  have hloads : Loads store .oneDirectory (.ok settings) :=
    .read hfind List.lookup_cons_self hread (.pairs (by simp) rfl (.cons rfl (.cons rfl .nil)))
  have hstate := load_of_state store .oneDirectory
  exact ⟨hloads, (hstate.1 _).mpr hloads, hstate.2.1 settings hloads, (hstate.2.2 "1+1").mpr ⟨settings, hloads⟩⟩

/-- With a directory at the settings path, and with a number in the settings file, there are no settings and no
problem is answered. -/
theorem load_directory_and_number :
    let directory : Store String := ⟨.ofText ".", []⟩
    let number : Store String := ⟨.ofText "config.json", [("config.json", "5")]⟩
    ((∀ settings, directory.load .oneDirectory ≠ .ok settings) ∧ ¬directory.Answers .oneDirectory "1+1") ∧
      (∀ settings, number.load .oneDirectory ≠ .ok settings) ∧ ¬number.Answers .oneDirectory "1+1" := by
  intro directory number
  have hdirectory : directory.load .oneDirectory = .error (.unreachable ⟨21, "Is a directory", some "."⟩) := by
    have hfind : directory.find .oneDirectory .reading = .error (.unreachable ⟨21, "Is a directory", some "."⟩) := by
      decide +kernel
    exact load_of_loads (.blocked hfind (by simp [Obstacle.isMissing]))
  have hnumber : number.load .oneDirectory = .error (.notEntries "int") := by
    have hfind : number.find .oneDirectory .reading = .ok "config.json" := by decide +kernel
    have hread : Json.read System.oneDirectory.depth "5" = .ok (.scalar (.int 5)) := rfl
    exact load_of_loads (.read hfind List.lookup_cons_self hread (.noParts rfl))
  exact ⟨not_answers_of_fault hdirectory "1+1", not_answers_of_fault hnumber "1+1"⟩

end Store

end Reckoner
