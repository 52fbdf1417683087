import Mathlib
import Reckoner.Proofs.Settings.Loading
import Reckoner.Session

/-!
# Saving and loading settings over a session

A save that opens a file leaves a beginning of its text there, all of it if the save succeeds (`Session.saves_step`).
No other step changes a file, so that at any time a file holds what was last written to it (`Session.lookup_run`), and
loading lays the settings that were last saved over the defaults or, where their text is not all there, gives the
defaults (`Session.load_run`). The answers of the system may be others at every step; that what was opened for writing
is found again afterwards is asked for by name (`System.Reopens`).
-/

namespace Reckoner

open Json (Piece)

/-- A single scalar with legible texts can be stored. -/
lemma Settings.Storable.single {depth : ℕ} {name : List CodePoint} {s : Json.Scalar} (hname : Unpaired name)
    (hs : s.IsLegible) : (Settings.ofEntries [(name, .scalar s)]).Storable (depth + 1) :=
  .mk (.object (List.forall_mem_singleton.mpr hname) (List.nodup_singleton name)
    (List.forall_mem_singleton.mpr (.scalar hs)))

/-- A place where a file was opened for writing is found again, now that there is a file. -/
def System.Reopens {File : Type} [DecidableEq File] (system : System File) : Prop :=
  ∀ isFile path file, system.find .writing isFile path = .ok file →
    system.find .reading (fun place => decide (place = file) || isFile place) path = .ok file

namespace Store

variable {File : Type} {store : Store File} {system : System File} {file place : File} {text : List Char}
  {settings : Settings} {fault : SettingsFault}

/-- The text that a save leaves in the file that it has opened. -/
def leaves (system : System File) (file : File) (settings : Settings) : List Char :=
  match system.breakOff file (Piece.begun settings.pieces) with
  | some (length, _) => (Piece.begun settings.pieces).take length
  | none => Piece.begun settings.pieces

lemma leaves_isPrefix : leaves system file settings <+: Piece.begun settings.pieces := by
  rw [leaves]
  split
  · exact List.take_prefix _ _
  · exact List.prefix_rfl

variable [DecidableEq File]

/-- The file holds the text afterwards, and nothing else has changed. -/
structure Gets (store : Store File) (file : File) (text : List Char) (after : Store File) : Prop where
  path : after.path = store.path
  text : after.files.lookup file = some (String.ofList text)
  others : ∀ place, place ≠ file → after.files.lookup place = store.files.lookup place

/-- Taking one file away leaves the others. -/
lemma lookup_filter_ne (h : place ≠ file) (files : List (File × String)) :
    (files.filter (·.1 ≠ file)).lookup place = files.lookup place := by
  induction files with
  | nil => rfl
  | cons entry files ih =>
    rw [List.filter_cons]
    split
    · rw [List.lookup_cons, List.lookup_cons, ih]
    · next hentry =>
      have heq : entry.1 = file := by simpa using hentry
      rw [ih, List.lookup_cons, beq_eq_false_iff_ne.mpr (heq ▸ h)]

lemma lookup_put : (store.put file text).files.lookup place =
    if place = file then some (String.ofList text) else store.files.lookup place := by
  rw [put, List.lookup_cons]
  by_cases h : place = file
  · rw [if_pos h, beq_iff_eq.mpr h]
  · rw [if_neg h, beq_eq_false_iff_ne.mpr h]
    exact lookup_filter_ne h store.files

lemma gets_put : store.Gets file text (store.put file text) where
  path := rfl
  text := by rw [lookup_put, if_pos rfl]
  others place h := by rw [lookup_put, if_neg h]

/-- Looking for the place of the settings fails because of an obstacle or because no path can be like this one. -/
lemma find_eq_error {access : Access} (h : store.find system access = .error fault) :
    (∃ obstacle, fault = .unreachable obstacle) ∨ '\x00' ∈ store.path.text.toList ∧ fault = .nullInPath := by
  rw [find] at h
  split at h
  · next hnull => exact .inr ⟨by simpa using hnull, (Except.error.inj h).symm⟩
  · obtain ⟨obstacle, -, rfl⟩ := Outcome.mapError_eq_error.mp h
    exact .inl ⟨obstacle, rfl⟩

lemma save_of_find_error (h : store.find system .writing = .error fault) :
    store.save system settings = (store, .error (refusal store.path fault)) := by
  rw [save, h]

lemma save_of_breakOff {length : ℕ} {breakage : Breakage} (h : store.find system .writing = .ok file)
    (hbreak : system.breakOff file (Piece.begun settings.pieces) = some (length, breakage)) :
    store.save system settings =
      (store.put file ((Piece.begun settings.pieces).take length), .error (brokenOff store.path breakage)) := by
  simp only [save, h, hbreak]

lemma save_of_complete (h : store.find system .writing = .ok file)
    (hbreak : system.breakOff file (Piece.begun settings.pieces) = none)
    (hcomplete : Piece.complete settings.pieces = true) :
    store.save system settings = (store.put file (Piece.textOf settings.pieces), .ok ()) := by
  rw [← Json.begun_of_complete hcomplete]
  simp only [save, h, hbreak, hcomplete, if_true]

lemma save_of_not_complete (h : store.find system .writing = .ok file)
    (hbreak : system.breakOff file (Piece.begun settings.pieces) = none)
    (hcomplete : Piece.complete settings.pieces = false) :
    store.save system settings =
      (store.put file (Piece.begun settings.pieces), .error (.fault .integerNotWritten)) := by
  simp only [save, h, hbreak, hcomplete, Bool.false_eq_true, if_false]

/-- A save that has opened a file either breaks off, or has written everything, or has met an integer that cannot be
written. -/
lemma save_cases (h : store.find system .writing = .ok file) (settings : Settings) :
    (∃ length breakage, system.breakOff file (Piece.begun settings.pieces) = some (length, breakage) ∧
      leaves system file settings = (Piece.begun settings.pieces).take length ∧
      store.save system settings =
        (store.put file (leaves system file settings), .error (brokenOff store.path breakage))) ∨
    (Piece.complete settings.pieces = true ∧ leaves system file settings = Piece.textOf settings.pieces ∧
      store.save system settings = (store.put file (leaves system file settings), .ok ())) ∨
    (Piece.complete settings.pieces = false ∧ leaves system file settings = Piece.begun settings.pieces ∧
      store.save system settings =
        (store.put file (leaves system file settings), .error (.fault .integerNotWritten))) := by
  rw [leaves]
  cases hbreak : system.breakOff file (Piece.begun settings.pieces) with
  | some breakage => exact .inl ⟨_, _, rfl, rfl, save_of_breakOff h hbreak⟩
  | none =>
    cases hcomplete : Piece.complete settings.pieces with
    | true =>
      have htext := Json.begun_of_complete hcomplete
      exact .inr (.inl ⟨rfl, htext, htext ▸ save_of_complete h hbreak hcomplete⟩)
    | false => exact .inr (.inr ⟨rfl, rfl, save_of_not_complete h hbreak hcomplete⟩)

lemma save_of_find (h : store.find system .writing = .ok file) :
    (store.save system settings).1 = store.put file (leaves system file settings) := by
  obtain ⟨_, _, -, -, hsave⟩ | ⟨-, -, hsave⟩ | ⟨-, -, hsave⟩ := save_cases h settings <;> rw [hsave]

@[simp] lemma path_save : (store.save system settings).1.path = store.path := by
  cases hfind : store.find system .writing with
  | error fault => rw [save_of_find_error hfind]
  | ok file =>
    rw [save_of_find hfind]
    rfl

/-- A save that succeeds has written the whole text. -/
lemma leaves_of_save (h : store.find system .writing = .ok file) (hsave : (store.save system settings).2 = .ok ()) :
    leaves system file settings = Piece.textOf settings.pieces := by
  obtain ⟨_, _, -, -, h⟩ | ⟨-, hall, -⟩ | ⟨-, -, h⟩ := save_cases h settings
  · rw [h] at hsave
    cases hsave
  · exact hall
  · rw [h] at hsave
    cases hsave

lemma isFile_put : (store.put file text).isFile = fun place => decide (place = file) || store.isFile place := by
  funext place
  rw [isFile, lookup_put]
  by_cases h : place = file
  · simp [h]
  · simp [h, isFile]

/-- A file that was opened for writing is found once there is a text in it. -/
lemma find_put (hsystem : system.Reopens) (h : store.find system .writing = .ok file) :
    (store.put file text).find system .reading = .ok file := by
  rw [find] at h
  split at h
  · cases h
  · next hnull =>
    refine (if_neg hnull).trans (Outcome.mapError_eq_ok.mpr ?_)
    rw [isFile_put]
    exact hsystem _ _ _ (Outcome.mapError_eq_ok.mp h)

/-- Settings that were saved are loaded over the defaults. -/
theorem load_of_save (hsystem : system.Reopens) (h : settings.Storable system.depth)
    (hsave : (store.save system settings).2 = .ok ()) :
    (store.save system settings).1.load system = .ok (settings.laidOver .defaults) := by
  cases hfind : store.find system .writing with
  | error fault =>
    rw [save_of_find_error hfind] at hsave
    cases hsave
  | ok file =>
    have hleaves := leaves_of_save hfind hsave
    rw [save_of_find hfind, hleaves, load_of_text (find_put hsystem hfind) gets_put.text, settingsOf_written h,
      if_pos rfl]
    exact hleaves ▸ leaves_isPrefix

end Store

namespace Session

open Store (leaves)

variable {File : Type} [DecidableEq File] {store : Store File} {system : System File} {file : File}
  {settings : Settings} {s : Step} {session : List (System File × Step)} {text : List Char}

/-- The settings that a step writes to a file, and the text that is in the file afterwards. -/
def Step.written? (system : System File) (store : Store File) (file : File) : Step → Option (Settings × List Char)
  | .save settings =>
    match store.find system .writing with
    | .ok place => if place = file then some (settings, leaves system file settings) else none
    | .error _ => none
  | _ => none

/-- What was last written to a file in a session. -/
def lastWritten (store : Store File) (file : File) : List (System File × Step) → Option (Settings × List Char)
  | [] => none
  | (system, s) :: rest => (lastWritten (step system store s).1 file rest).or (s.written? system store file)

/-- What becomes of a save: all of the text is in the file that the path leads to; or a beginning of it is, because the
writing broke off or an integer could not be written; or nothing has changed and the path is named as the problem; or
nothing has changed because the path holds a null character. -/
inductive Saves (system : System File) (store : Store File) (settings : Settings) : Store File × Answer → Prop where
  | saved {file after} :
    store.find system .writing = .ok file →
    (Step.save settings).written? system store file = some (settings, Piece.textOf settings.pieces) →
    store.Gets file (Piece.textOf settings.pieces) after →
    Saves system store settings (after, .settings settings)
  | brokenOff {file text length breakage after} :
    store.find system .writing = .ok file →
    system.breakOff file (Piece.begun settings.pieces) = some (length, breakage) →
    (Step.save settings).written? system store file = some (settings, text) →
    text = (Piece.begun settings.pieces).take length →
    store.Gets file text after →
    Saves system store settings (after, .aborted (Store.brokenOff store.path breakage))
  | notWritten {file after} :
    store.find system .writing = .ok file →
    Piece.complete settings.pieces = false →
    (Step.save settings).written? system store file = some (settings, Piece.begun settings.pieces) →
    store.Gets file (Piece.begun settings.pieces) after →
    Saves system store settings (after, .aborted (.fault .integerNotWritten))
  | refused {obstacle} {f : Failure} :
    store.find system .writing = .error (.unreachable obstacle) →
    f.cause = .settingsNotSaved obstacle.message →
    f.cause.code = "5000" →
    f.equation = some store.path.text →
    Saves system store settings (store, .aborted (.failure f))
  | null :
    '\x00' ∈ store.path.text.toList →
    Saves system store settings (store, .aborted (.fault .nullInPath))

lemma written?_of_find (h : store.find system .writing = .ok file) (settings : Settings) :
    (Step.save settings).written? system store file = some (settings, leaves system file settings) := by
  rw [Step.written?, h]
  exact if_pos rfl

theorem saves_step (system : System File) (store : Store File) (settings : Settings) :
    Saves system store settings (step system store (.save settings)) := by
  rw [step]
  cases hfind : store.find system .writing with
  | error fault =>
    rw [Store.save_of_find_error hfind]
    obtain ⟨obstacle, rfl⟩ | ⟨hnull, rfl⟩ := Store.find_eq_error hfind
    · exact .refused hfind rfl rfl rfl
    · exact .null hnull
  | ok file =>
    have hwritten := written?_of_find hfind settings
    obtain ⟨length, breakage, hbreak, htext, hsave⟩ | ⟨-, htext, hsave⟩ | ⟨hcomplete, htext, hsave⟩ :=
      Store.save_cases hfind settings
    · rw [hsave]
      exact .brokenOff hfind hbreak hwritten htext Store.gets_put
    · rw [hsave, htext]
      exact .saved hfind (htext ▸ hwritten) Store.gets_put
    · rw [hsave, htext]
      exact .notWritten hfind hcomplete (htext ▸ hwritten) Store.gets_put

/-- After a step a file holds what the step wrote to it, or what it held before. -/
lemma lookup_step (system : System File) (store : Store File) (s : Step) (file : File) :
    (step system store s).1.files.lookup file =
      ((s.written? system store file).map fun written => String.ofList written.2).or (store.files.lookup file) := by
  cases s with
  | save settings =>
    have hstep : (step system store (.save settings)).1 = (store.save system settings).1 := rfl
    rw [hstep, Step.written?]
    cases hfind : store.find system .writing with
    | error fault =>
      rw [Store.save_of_find_error hfind]
      rfl
    | ok place =>
      rw [Store.save_of_find hfind, Store.lookup_put]
      by_cases hplace : place = file
      · subst hplace
        simp
      · simp [hplace, Ne.symm hplace]
  | moveTo path => rfl
  | load name => rfl
  | render value => rfl
  | calculate problem => rfl
  | answer line settings => rfl
  | console arguments input => rfl

/-- After a session a file holds what was written to it last, or what it held at the start. -/
theorem lookup_run (store : Store File) (session : List (System File × Step)) (file : File) :
    (run store session).1.files.lookup file =
      ((lastWritten store file session).map fun written => String.ofList written.2).or (store.files.lookup file) := by
  induction session generalizing store with
  | nil => rfl
  | cons now rest ih =>
    rw [run, lastWritten]
    simp only
    rw [ih, lookup_step, Option.map_or, Option.or_assoc]

/-- What is written last is the beginning of what one of the steps saves. -/
lemma mem_of_lastWritten (h : lastWritten store file session = some (settings, text)) :
    (∃ system, (system, .save settings) ∈ session) ∧ text <+: Piece.begun settings.pieces := by
  induction session generalizing store with
  | nil => cases h
  | cons now rest ih =>
    rw [lastWritten, Option.or_eq_some_iff] at h
    obtain h | ⟨-, h⟩ := h
    · obtain ⟨⟨system, hmem⟩, hbegins⟩ := ih h
      exact ⟨⟨system, List.mem_cons_of_mem now hmem⟩, hbegins⟩
    · obtain ⟨system, s⟩ := now
      cases s with
      | save saved =>
        rw [Step.written?] at h
        split at h
        · split at h
          · cases h
            exact ⟨⟨system, List.mem_cons_self⟩, Store.leaves_isPrefix⟩
          · cases h
        · cases h
      | _ => cases h

/-- Only a save that has opened a file changes the files. -/
lemma find_of_files_ne (h : (step system store s).1.files ≠ store.files) :
    ∃ settings file, s = .save settings ∧ store.find system .writing = .ok file := by
  cases s with
  | save settings =>
    cases hfind : store.find system .writing with
    | ok file => exact ⟨settings, file, rfl, rfl⟩
    | error fault =>
      rw [step, Store.save_of_find_error hfind] at h
      exact absurd rfl h
  | moveTo path => exact absurd rfl h
  | load name => exact absurd rfl h
  | render value => exact absurd rfl h
  | calculate problem => exact absurd rfl h
  | answer line settings => exact absurd rfl h
  | console arguments input => exact absurd rfl h

/-- Loading undoes saving over a whole session, whatever the system answers on the way: the settings loaded from a
file are those last written to it, laid over the defaults, or the defaults if not all of their text was written. Every
save ends in one of the ways that `Saves` names, and no step but a save that has opened a file changes any. -/
theorem load_run (store : Store File) (system : System File)
    (hsaves : ∀ now settings, (now, .save settings) ∈ session → settings.Storable system.depth) :
    (∀ file, (run store session).1.find system .reading = .ok file →
      (run store session).1.load system =
        match lastWritten store file session with
        | some (settings, text) =>
          .ok (if text = Piece.textOf settings.pieces then settings.laidOver .defaults else .defaults)
        | none =>
          match store.files.lookup file with
          | some text => Store.settingsOf system.depth text
          | none => .ok .defaults) ∧
    (∀ (now : Store File) (system : System File) settings, system.Reopens → settings.Storable system.depth →
      (now.save system settings).2 = .ok () →
      (now.save system settings).1.load system = .ok (settings.laidOver .defaults)) ∧
    (∀ (system : System File) (now : Store File) settings,
      Saves system now settings (step system now (.save settings))) ∧
    ∀ (system : System File) (now : Store File) s, (step system now s).1.files ≠ now.files →
      ∃ settings file, s = .save settings ∧ now.find system .writing = .ok file := by
  refine ⟨fun file hfind => ?_, fun now system settings hsystem h hsave => Store.load_of_save hsystem h hsave,
    saves_step, fun system now s h => find_of_files_ne h⟩
  rw [Store.load_of_find hfind, lookup_run]
  cases hlast : lastWritten store file session with
  | none => rfl
  | some written =>
    obtain ⟨⟨now, hmem⟩, hbegins⟩ := mem_of_lastWritten hlast
    exact Store.settingsOf_written (hsaves now written.1 hmem) hbegins

end Session

/-- The one directory on a disk that takes so many characters of a text. -/
def System.fullAfter (room : ℕ) : System String :=
  { System.oneDirectory with
    breakOff _ text :=
      if room < text.length then some (room, .obstacle ⟨28, "No space left on device", none⟩) else none }

lemma System.reopens_oneDirectory : System.oneDirectory.Reopens := by
  intro isFile path file h
  exact h

namespace Store

/-- Where the path leads in the one directory does not depend on the files. -/
lemma find_oneDirectory (store : Store String) (access : Access) :
    store.find .oneDirectory access = (⟨store.path, []⟩ : Store String).find .oneDirectory .reading :=
  rfl

lemma find_fullAfter (store : Store String) (room : ℕ) (access : Access) :
    store.find (.fullAfter room) access = (⟨store.path, []⟩ : Store String).find .oneDirectory .reading :=
  rfl

lemma leaves_oneDirectory {file : String} {settings : Settings} (h : Piece.complete settings.pieces = true) :
    leaves .oneDirectory file settings = Piece.textOf settings.pieces :=
  Json.begun_of_complete h

end Store

namespace Session

open Store (leaves)

/-- Settings with texts beyond ASCII, NaN and nested parts are saved, another save fails on the way, and the settings
are loaded again. A save that does not have the room then leaves the defaults. -/
theorem load_run_saved :
    let entries : List (List CodePoint × Json.Value) :=
      [("näme\n😀", .list [.scalar (.float (0 / 0)), .scalar (.int (-5)), .object [], .scalar (.text [.surrogate 5])]),
        ("debug", .scalar (.bool true))]
    let gone := Settings.ofEntries [("gone", .scalar .null)]
    let saves : List (System String × Step) :=
      [(.oneDirectory, .save gone), (.oneDirectory, .save (.ofEntries entries)),
        (.oneDirectory, .moveTo "missing/config.json"), (.oneDirectory, .save (.ofEntries [])),
        (.oneDirectory, .calculate "1+1"), (.oneDirectory, .moveTo "config.json"), (.oneDirectory, .console [] "quit")]
    let full := saves ++ [(.fullAfter 10, .save gone)]
    let store : Store String := ⟨.ofText "config.json", []⟩
    (∀ now settings, (now, .save settings) ∈ full → settings.Storable System.oneDirectory.depth) ∧
      (run store saves).1.find .oneDirectory .reading = .ok "config.json" ∧
      (run store saves).1.load .oneDirectory = .ok ((Settings.ofEntries entries).laidOver .defaults) ∧
      (run store full).1.find .oneDirectory .reading = .ok "config.json" ∧
      (run store full).1.load .oneDirectory = .ok .defaults ∧
      System.oneDirectory.Reopens ∧ (store.save .oneDirectory gone).2 = .ok () ∧
      (store.save .oneDirectory gone).1.load .oneDirectory = .ok (gone.laidOver .defaults) := by
  intro entries gone saves full store
  have hgone : gone.Storable System.oneDirectory.depth := .single (by decide) trivial
  have hentries : (Settings.ofEntries entries).Storable System.oneDirectory.depth := by
    have hlone : Unpaired [.surrogate 5] := by decide
    refine .mk (.object ?_ (by decide) ?_)
    · simp only [entries, List.forall_mem_cons]
      exact ⟨by decide, by decide, by simp⟩
    · simp only [entries, List.forall_mem_cons]
      refine ⟨.list ?_, .scalar trivial, by simp⟩
      simp only [List.forall_mem_cons]
      exact ⟨.scalar trivial, .scalar trivial, .object (by simp) (by simp) (by simp), .scalar hlone, by simp⟩
  have hnone : (Settings.ofEntries []).Storable System.oneDirectory.depth :=
    .mk (.object (by simp) (by simp) (by simp))
  have hsaves : ∀ now settings, (now, .save settings) ∈ full → settings.Storable System.oneDirectory.depth := by
    intro now settings hmem
    simp only [full, saves, List.cons_append, List.nil_append, List.mem_cons, Prod.mk.injEq, Step.save.injEq,
      reduceCtorEq, and_false, List.not_mem_nil, or_false, false_or] at hmem
    obtain ⟨-, rfl⟩ | ⟨-, rfl⟩ | ⟨-, rfl⟩ | ⟨-, rfl⟩ := hmem
    · exact hgone
    · exact hentries
    · exact hnone
    · exact hgone
  have hpath : (⟨.ofText "config.json", []⟩ : Store String).find .oneDirectory .reading = .ok "config.json" := by
    decide +kernel
  have hmissing : (⟨.ofText "missing/config.json", []⟩ : Store String).find .oneDirectory .reading =
      .error (.unreachable ⟨2, "No such file or directory", some "missing/config.json"⟩) := by
    decide +kernel
  have hsavesPath : (run store saves).1.path = .ofText "config.json" := by
    simp [saves, run, step, Store.moveTo]
  have hfullPath : (run store full).1.path = .ofText "config.json" := by
    simp [full, saves, run, step, Store.moveTo]
  have hcomplete : Piece.complete (Settings.ofEntries entries).pieces = true := by decide +kernel
  have hlast : lastWritten store "config.json" saves =
      some (.ofEntries entries, Piece.textOf (Settings.ofEntries entries).pieces) := by
    simp [saves, store, lastWritten, Step.written?, step, Store.moveTo, Store.find_oneDirectory, hpath, hmissing,
      Store.leaves_oneDirectory hcomplete]
  have hshort : leaves (.fullAfter 10) "config.json" gone = "\x7b\n    \"gon".toList := by decide +kernel
  have hcut : lastWritten store "config.json" full = some (gone, "\x7b\n    \"gon".toList) := by
    simp [full, saves, store, lastWritten, Step.written?, step, Store.moveTo, Store.find_fullAfter, hpath, hshort]
  have hne : "\x7b\n    \"gon".toList ≠ Piece.textOf gone.pieces := by decide +kernel
  have hfind : (run store saves).1.find .oneDirectory .reading = .ok "config.json" := by
    rw [Store.find_oneDirectory, hsavesPath, hpath]
  have hfindFull : (run store full).1.find .oneDirectory .reading = .ok "config.json" := by
    rw [Store.find_oneDirectory, hfullPath, hpath]
  have hload : (run store saves).1.load .oneDirectory = .ok ((Settings.ofEntries entries).laidOver .defaults) := by
    have hrun := (load_run store .oneDirectory fun now settings h => hsaves now settings (List.mem_append_left _ h)).1
    rw [hrun _ hfind, hlast]
    exact congrArg Except.ok (if_pos rfl)
  have hloadFull : (run store full).1.load .oneDirectory = .ok .defaults := by
    rw [(load_run store .oneDirectory hsaves).1 _ hfindFull, hcut]
    exact congrArg Except.ok (if_neg hne)
  have hsave : (store.save .oneDirectory gone).2 = .ok () := by
    have hall : Piece.complete gone.pieces = true := by decide +kernel
    rw [Store.save_of_complete hpath rfl hall]
  have hsaved := (load_run store .oneDirectory hsaves).2.1 store _ gone System.reopens_oneDirectory hgone hsave
  exact ⟨hsaves, hfind, hload, hfindFull, hloadFull, System.reopens_oneDirectory, hsave, hsaved⟩

end Session

namespace Store

/-- With a null character in its path a save opens no file and is not reported as one that failed; a save that is
reported can have changed the file; and a high surrogate with a low one behind it is loaded as one character. -/
theorem save_null_full_pair :
    let null : Store String := ⟨.ofText "a\x00b", []⟩
    let kept : Store String := ⟨.ofText "config.json", [("config.json", "\x7b\"debug\": true\x7d")]⟩
    let pair := Settings.ofEntries [("name", .scalar (.text [.surrogate 0x3d, .surrogate 0x600]))]
    ((∀ file, null.find .oneDirectory .writing ≠ .ok file) ∧
      ∀ settings failure, (null.save .oneDirectory settings).2 ≠ .error (.failure failure)) ∧
    ((kept.save (.fullAfter 10) pair).2 =
        .error (.failure ⟨.settingsNotSaved "[Errno 28] No space left on device", some "config.json"⟩) ∧
      (kept.save (.fullAfter 10) pair).1.files = [("config.json", "\x7b\n    \"nam")]) ∧
    ((kept.save .oneDirectory pair).2 = .ok () ∧
      (kept.save .oneDirectory pair).1.load .oneDirectory ≠ .ok (pair.laidOver .defaults)) := by
  intro null kept pair
  have hnull : null.find .oneDirectory .writing = .error .nullInPath := by decide +kernel
  have hpath : kept.find .oneDirectory .writing = .ok "config.json" := by decide +kernel
  have hcomplete : Piece.complete pair.pieces = true := by decide +kernel
  have hfull : kept.find (.fullAfter 10) .writing = .ok "config.json" := hpath
  have hbreak : (System.fullAfter 10).breakOff "config.json" (Piece.begun pair.pieces) =
      some (10, .obstacle ⟨28, "No space left on device", none⟩) := by decide +kernel
  have hcut : (Piece.begun pair.pieces).take 10 = "\x7b\n    \"nam".toList := by decide +kernel
  have hsave : (kept.save .oneDirectory pair).2 = .ok () := by
    rw [save_of_complete hpath rfl hcomplete]
  refine ⟨⟨fun file h => ?_, fun settings failure h => ?_⟩, ⟨?_, ?_⟩, hsave, fun h => ?_⟩
  · cases hnull.symm.trans h
  · rw [save_of_find_error hnull] at h
    cases h
  · rw [save_of_breakOff hfull hbreak]
    rfl
  · rw [save_of_breakOff hfull hbreak, hcut]
    rfl
  · -- the pair is written as the character is
    let single := Settings.ofEntries [("name", .scalar (.text "😀"))]
    have hsingle : Piece.complete single.pieces = true := by decide +kernel
    have htext : Piece.textOf pair.pieces = Piece.textOf single.pieces := by decide +kernel
    have hsame : kept.save .oneDirectory pair = kept.save .oneDirectory single := by
      rw [save_of_complete hpath rfl hcomplete, save_of_complete hpath rfl hsingle, htext]
    have hstorable : single.Storable System.oneDirectory.depth :=
      .single (by decide) (by decide : Unpaired "😀")
    rw [hsame, load_of_save System.reopens_oneDirectory hstorable (hsame ▸ hsave), Except.ok.injEq] at h
    have hlast : some (Json.Scalar.text "name", Json.Value.scalar (.text "😀")) =
        some (.text "name", .scalar (.text [.surrogate 0x3d, .surrogate 0x600])) :=
      congrArg (fun settings : Settings => settings.entries.getLast?) h
    simp [CodePoint.ofString] at hlast

end Store

end Reckoner
