import Mathlib
import Reckoner.Proofs.Json.Pieces
import Reckoner.Settings.Store

/-!
# Settings laid over others

What is stored as a JSON object takes effect as settings laid over the defaults: the defaults keep their order and
take the stored values, and new settings follow (`Settings.laidOver`, `Settings.overlay_object`). Settings that have
been written to a file are therefore read from it over the defaults, and what has been written of them before the
writing broke off leaves the defaults as they are (`Store.settingsOf_written`).
-/

namespace Reckoner

open Json (Scalar Value overlaid findBy? insertBy)

namespace Settings

/-- The settings with names for keys that a JSON object stores. -/
def ofEntries (entries : List (List CodePoint × Value)) : Settings :=
  ⟨entries.map fun entry => (.text entry.1, entry.2)⟩

/-- The settings laid over others: the others keep their order and take the new values, and settings that they do
not have follow. -/
def laidOver (settings base : Settings) : Settings :=
  ⟨overlaid Scalar.sameKey base.entries settings.entries⟩

/-- Settings that can be read back if they can be written: an object with legible texts and not too many levels. -/
inductive Storable (depth : ℕ) : Settings → Prop where
  | mk {entries} :
    (Value.object entries).Fits Scalar.IsLegible depth →
    Storable depth (ofEntries entries)

variable {base entries : List (List CodePoint × Value)}

lemma insert_ofEntries (name : List CodePoint) (value : Value) (base : List (List CodePoint × Value)) :
    (ofEntries base).insert (.text name) value = ofEntries (insertBy (· == ·) name value base) := by
  rw [insert, ofEntries, ofEntries, Settings.mk.injEq]
  induction base with
  | nil => rfl
  | cons entry base ih =>
    rw [List.map_cons, insertBy, insertBy, ih]
    by_cases h : entry.1 = name
    · simp [Scalar.sameKey, h]
    · simp [Scalar.sameKey, h]

lemma laidOver_ofEntries (entries base : List (List CodePoint × Value)) :
    (ofEntries entries).laidOver (ofEntries base) = ofEntries (overlaid (· == ·) base entries) := by
  rw [laidOver, ofEntries, ofEntries, ofEntries, Settings.mk.injEq]
  exact Json.overlaid_map Scalar.text base entries

/-- Laying an object with different keys over settings. -/
theorem overlay_object (hbase : (base.map Prod.fst).Nodup) (h : (entries.map Prod.fst).Nodup) :
    (ofEntries base).overlay (.object entries) = .ok ((ofEntries entries).laidOver (ofEntries base)) := by
  rw [overlay, laidOver_ofEntries, ← Json.foldl_insertBy_eq hbase h]
  clear h hbase
  congr 1
  induction entries generalizing base with
  | nil => rfl
  | cons entry entries ih => rw [List.foldl_cons, insert_ofEntries, ih, List.foldl_cons]

/-- Settings with names for keys are written as the object that they are. -/
lemma pieces_ofEntries (entries : List (List CodePoint × Value)) :
    (ofEntries entries).pieces = Json.pieces 0 (.object entries) := by
  rw [pieces, ofEntries, List.map_map, Json.pieces]
  congr 1
  induction entries with
  | nil => rfl
  | cons entry entries ih =>
    rw [List.map_cons, ih]
    rfl

/-- The defaults as entries. -/
def defaultEntries : List (List CodePoint × Value) :=
  [("decimal_places", .scalar (.int 10)), ("fractions", .scalar (.bool false)),
    ("show_steps", .scalar (.bool true)), ("debug", .scalar (.bool false))]

lemma defaults_eq : defaults = ofEntries defaultEntries :=
  rfl

lemma nodup_defaultEntries : (defaultEntries.map Prod.fst).Nodup := by
  decide

/-- Laying an object with different keys over the defaults. -/
theorem overlay_defaults (h : (entries.map Prod.fst).Nodup) :
    defaults.overlay (.object entries) = .ok ((ofEntries entries).laidOver defaults) := by
  rw [defaults_eq, overlay_object nodup_defaultEntries h]

end Settings

namespace Store

variable {File : Type} [DecidableEq File] {store : Store File} {system : System File} {file : File} {text : String}

/-- At a path that leads to a place the settings are those of the file there. -/
lemma load_of_find (h : store.find system .reading = .ok file) :
    store.load system =
      match store.files.lookup file with
      | some text => settingsOf system.depth text
      | none => .ok .defaults := by
  cases hfile : store.files.lookup file with
  | some text => simp only [load, h, hfile]
  | none => simp only [load, h, hfile]

lemma load_of_text (h : store.find system .reading = .ok file) (htext : store.files.lookup file = some text) :
    store.load system = settingsOf system.depth text := by
  rw [load_of_find h, htext]

/-- Settings that have been written are read over the defaults if all of them have been, and not at all otherwise. -/
theorem settingsOf_written {depth : ℕ} {settings : Settings} {w : List Char} (h : settings.Storable depth)
    (hw : w <+: Json.Piece.begun settings.pieces) :
    settingsOf depth (String.ofList w) =
      .ok (if w = Json.Piece.textOf settings.pieces then settings.laidOver .defaults else .defaults) := by
  obtain @⟨entries, hfits⟩ := h
  rw [Settings.pieces_ofEntries] at hw ⊢
  rw [settingsOf, Json.read_of_begun hfits hw]
  by_cases hall : w = Json.Piece.textOf (Json.pieces 0 (.object entries))
  · rw [if_pos hall, if_pos hall]
    cases hfits with
    | object _ hkeys _ => exact Settings.overlay_defaults hkeys
  · rw [if_neg hall, if_neg hall]

end Store

end Reckoner
