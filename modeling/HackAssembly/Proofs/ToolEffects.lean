import HackAssembly.Proofs.CommandLine
import HackAssembly.Proofs.DiskLaws
import HackAssembly.Proofs.RoundTrip

/-!
# What the tool does to files

A run of the tool changes at most one file, and only when all has gone well.  What it reads, makes
and writes is said here without going through the run:

* `Reads`: the file at a path can be read to its end.
* `Makes`: what an action makes of a text, and the diagnostics that come with it.
* `Target`: where this goes.  A given path counts; without one, a program goes beside its source,
  under the same name with another extension (`WithExtension`), and a listing is only shown.

A run on any lawful disk then ends in one of four ways (`Ended`): nothing could be made, the disk
refused the result, the disk took it, or it was shown.  Whatever is asked about a run follows from
these (`Effect`), also when the target is the input itself, since the input has been read by then.
How much is shown or logged makes no difference to it.

All this is about an action with given settings.  That arguments which ask for these settings run
the action with them is up to whoever reads arguments, and `Documented` is all that it needs.
-/

namespace HackAssembly

open Assembly

/-! ## The path of the result -/

/-- A path and the path with the extension of its last name replaced.  The extension starts at the
last dot of the name; a name without a dot has none. -/
inductive WithExtension (extension : Bytes) : Bytes → Bytes → Prop
  | replaced {stem suffix : Bytes} (hdot : Path.dot ∉ suffix) (hslash : Path.slash ∉ suffix) :
    WithExtension extension (stem ++ Path.dot :: suffix) (stem ++ extension)
  | added {directory name : Bytes}
    (hdirectory : directory = [] ∨ directory.getLast? = some Path.slash)
    (hdot : Path.dot ∉ name) (hslash : Path.slash ∉ name) :
    WithExtension extension (directory ++ name) (directory ++ name ++ extension)

def Path.isInner (b : UInt8) : Bool := b != Path.dot && b != Path.slash

theorem Path.isInner_of_notMem {suffix : Bytes} (hdot : Path.dot ∉ suffix)
    (hslash : Path.slash ∉ suffix) : ∀ b ∈ suffix.reverse, Path.isInner b = true := by
  intro b hb
  rw [List.mem_reverse] at hb
  rw [isInner, Bool.and_eq_true, bne_iff_ne, bne_iff_ne]
  exact ⟨fun h => hdot (h ▸ hb), fun h => hslash (h ▸ hb)⟩

theorem outputPath_eq (path extension : Bytes) :
    outputPath path extension = match path.reverse.dropWhile Path.isInner with
      | 0x2E :: stem => stem.reverse ++ extension
      | _ => path ++ extension := rfl

theorem outputPath_of_withExtension {extension path target : Bytes}
    (h : WithExtension extension path target) : outputPath path extension = target := by
  cases h with
  | @replaced stem suffix hdot hslash =>
    have hdrop : (stem ++ Path.dot :: suffix).reverse.dropWhile Path.isInner
        = Path.dot :: stem.reverse := by
      rw [List.reverse_append, List.reverse_cons, List.append_assoc,
        List.dropWhile_append_of_pos (Path.isInner_of_notMem hdot hslash)]
      rfl
    rw [outputPath_eq, hdrop]
    exact congrArg (· ++ extension) (List.reverse_reverse stem)
  | @added directory name hdirectory hdot hslash =>
    have hdrop : (directory ++ name).reverse.dropWhile Path.isInner
        = directory.reverse.dropWhile Path.isInner := by
      rw [List.reverse_append, List.dropWhile_append_of_pos (Path.isInner_of_notMem hdot hslash)]
    rw [outputPath_eq, hdrop]
    rcases hdirectory with rfl | hlast
    · rfl
    · obtain ⟨directory, rfl⟩ := List.getLast?_eq_some_iff.1 hlast
      rw [List.reverse_append]
      rfl

theorem exists_withExtension (extension path : Bytes) :
    ∃ target, WithExtension extension path target := by
  have hsplit : path = (path.reverse.dropWhile Path.isInner).reverse
      ++ (path.reverse.takeWhile Path.isInner).reverse := by
    rw [← List.reverse_append, List.takeWhile_append_dropWhile, List.reverse_reverse]
  have hinner : ∀ b, Path.isInner b = false →
      b ∉ (path.reverse.takeWhile Path.isInner).reverse := by
    intro b hb hmem
    rw [List.mem_reverse] at hmem
    rw [List.mem_takeWhile_imp hmem] at hb
    cases hb
  rw [hsplit]
  cases hdrop : path.reverse.dropWhile Path.isInner with
  | nil => exact ⟨_, .added (Or.inl rfl) (hinner _ rfl) (hinner _ rfl)⟩
  | cons b stem =>
    have hb : Path.isInner b = false := by
      have hhead := List.head?_dropWhile_not Path.isInner path.reverse
      rwa [hdrop] at hhead
    rw [List.reverse_cons]
    by_cases hdot : b = Path.dot
    · rw [hdot, List.append_assoc]
      exact ⟨_, .replaced (hinner _ rfl) (hinner _ rfl)⟩
    · obtain rfl : b = Path.slash := by
        rw [Path.isInner, Bool.and_eq_false_iff, bne_eq_false_iff_eq, bne_eq_false_iff_eq] at hb
        exact hb.resolve_left hdot
      exact ⟨_, .added (Or.inr (List.getLast?_concat ..)) (hinner _ rfl) (hinner _ rfl)⟩

theorem withExtension_iff {extension path target : Bytes} :
    WithExtension extension path target ↔ target = outputPath path extension := by
  constructor
  · exact fun h => (outputPath_of_withExtension h).symm
  · rintro rfl
    obtain ⟨target, h⟩ := exists_withExtension extension path
    rwa [outputPath_of_withExtension h]

namespace Tool

/-! ## What a run is about -/

section Terms

variable {σ : Type}

def Reads (disk : Disk (StateM σ)) (s : σ) (path text : Bytes) : Prop :=
  ((disk.openFile path).run s).1 = .ok { bytes := text, failure := none }

def Writes (disk : Disk (StateM σ)) (s : σ) (path content : Bytes) : Prop :=
  ((disk.replaceFile path content).run s).1 = .ok ()

/-- What an action makes of a text, with the diagnostics that come with it. -/
inductive Makes (settings : Settings) (text : Bytes) : Action → Bytes → List Diagnostic → Prop
  | program {a : Assembler}
    (h : (assemble { bytes := text, failure := none }).run
      (.fresh (if settings.strict then .strict else .lenient)) = .ok () a) :
    Makes settings text .assemble a.program a.diagnostics.toList
  | listing {texts : List Bytes}
    (h : disassembleAll { bytes := text, failure := none } = .ok texts) :
    Makes settings text .disassemble (unlines texts) []

/-- What an action makes of the file at a path, which can be read to its end. -/
def Yields (disk : Disk (StateM σ)) (s : σ) (action : Action) (settings : Settings) (path : Bytes)
    (product : Bytes) (ds : List Diagnostic) : Prop :=
  ∃ text, Reads disk s path text ∧ Makes settings text action product ds

/-- Where an action puts what it makes; nowhere, when it is shown. -/
inductive Target (settings : Settings) (path : Bytes) : Action → Option Bytes → Prop
  | given {action : Action} (h : settings.output ≠ []) :
    Target settings path action (some settings.output)
  | beside {target : Bytes} (h : settings.output = [])
    (htarget : WithExtension (ascii ".hack") path target) :
    Target settings path .assemble (some target)
  | shown (h : settings.output = []) : Target settings path .disassemble none

end Terms

variable {σ : Type} {disk : Disk (StateM σ)} {s : σ} {settings : Settings} {action : Action}
  {path text product other : Bytes} {ds es : List Diagnostic}

theorem Makes.unique (h : Makes settings text action product ds)
    (h' : Makes settings text action other es) : product = other ∧ ds = es := by
  cases h with
  | program h =>
    cases h' with
    | program h' =>
      rw [h] at h'
      cases h'
      exact ⟨rfl, rfl⟩
  | listing h =>
    cases h' with
    | listing h' =>
      rw [h] at h'
      cases h'
      exact ⟨rfl, rfl⟩

/-- What is made is made of the file that was opened. -/
theorem Yields.opened (h : Yields disk s action settings path product ds) {source : Source}
    (hopened : ((disk.openFile path).run s).1 = .ok source) :
    ∃ text, source = { bytes := text, failure := none } ∧
      Makes settings text action product ds := by
  obtain ⟨text, hreads, hmakes⟩ := h
  rw [Reads, hopened] at hreads
  cases hreads
  exact ⟨text, rfl, hmakes⟩

theorem Yields.unique (h : Yields disk s action settings path product ds)
    (h' : Yields disk s action settings path other es) : product = other ∧ ds = es := by
  obtain ⟨text, hreads, hmakes⟩ := h
  obtain ⟨text', hsource, hmakes'⟩ := h'.opened hreads
  cases hsource
  exact hmakes.unique hmakes'

theorem Target.unique {t u : Option Bytes} (h : Target settings path action t)
    (h' : Target settings path action u) : t = u := by
  cases h with
  | given h =>
    cases h' with
    | given _ => rfl
    | beside h' _ => exact absurd h' h
    | shown h' => exact absurd h' h
  | beside h htarget =>
    cases h' with
    | given h' => exact absurd h h'
    | beside _ htarget' => rw [withExtension_iff.1 htarget, withExtension_iff.1 htarget']
  | shown h =>
    cases h' with
    | given h' => exact absurd h h'
    | shown _ => rfl

/-! ## How a run ends -/

def Exit.warnings (e : Exit) : List LogEntry := e.log.filter (·.severity = .warning)

def Exit.errors (e : Exit) : List LogEntry := e.log.filter (·.severity = .error)

def IsStep (entry : LogEntry) : Prop := ∃ level, entry.severity = .info level

/-- How an action on a file ends, from a state of the disk. -/
inductive Ended (disk : Disk (StateM σ)) (action : Action) (settings : Settings) (path : Bytes)
    (s : σ) : Exit × σ → Prop
  /-- There was nothing to make something of, or it could not be made. -/
  | unmade {message : Bytes} {steps : List LogEntry} (hsteps : ∀ entry ∈ steps, IsStep entry)
    (hnone : ∀ product ds, ¬ Yields disk s action settings path product ds) :
    Ended disk action settings path s (failed message [] steps, s)
  | refused {product target message output : Bytes} {ds : List Diagnostic} {error : PathError}
    {steps : List LogEntry} (hsteps : ∀ entry ∈ steps, IsStep entry)
    (hyields : Yields disk s action settings path product ds)
    (htarget : Target settings path action (some target))
    (hrefused : (disk.replaceFile target product).run s = (.error error, s)) :
    Ended disk action settings path s
      (failed message output (steps ++ ds.map (Diagnostic.logEntry path)), s)
  | saved {product target output : Bytes} {ds : List Diagnostic} {entry : LogEntry}
    {steps : List LogEntry} {s' : σ} (hsteps : ∀ entry ∈ steps, IsStep entry)
    (hentry : IsStep entry) (hyields : Yields disk s action settings path product ds)
    (htarget : Target settings path action (some target))
    (hsaved : (disk.replaceFile target product).run s = (.ok (), s')) :
    Ended disk action settings path s
      ({ output, log := steps ++ ds.map (Diagnostic.logEntry path) ++ [entry] }, s')
  | shown {product : Bytes} (hyields : Yields disk s action settings path product [])
    (htarget : Target settings path action none) :
    Ended disk action settings path s ({ output := product }, s)

section Actions

variable {ι : Type} {place? : σ → Bytes → Option ι} {node? : σ → ι → Option Node}

theorem run_bind {α β : Type} (x : StateM σ α) (f : α → StateM σ β) (s : σ) :
    (x >>= f).run s = (f (x.run s).1).run (x.run s).2 := rfl

/-- **Writing the result** is the last step of an action. -/
theorem Ended.save (laws : disk.Lawful place? node?) {target : Bytes} {entry : LogEntry}
    {steps : List LogEntry} (hsteps : ∀ entry ∈ steps, IsStep entry) (hentry : IsStep entry)
    (hyields : Yields disk s action settings path product ds)
    (htarget : Target settings path action (some target)) (output : Bytes) :
    Ended disk action settings path s
      ((save disk target product entry output (steps ++ ds.map (Diagnostic.logEntry path))).run
        s) := by
  rw [Tool.save, run_bind]
  obtain ⟨result, s', hrun⟩ : ∃ result s', (disk.replaceFile target product).run s = (result, s') :=
    ⟨_, _, rfl⟩
  rw [hrun]
  cases result with
  | error error =>
    obtain rfl := laws.refused hrun
    exact .refused hsteps hyields htarget hrun
  | ok _ => exact .saved hsteps hentry hyields htarget hrun

theorem isShown_of_severity {entry : LogEntry} {severity : Severity}
    (h : severity = .warning ∨ severity = .error) (hentry : entry.severity = severity)
    (gate : LogGate) : entry.isShown gate = true := by
  subst hentry
  rcases h with h | h <;> rw [LogEntry.isShown, h]

/-- A gate leaves out steps only. -/
theorem filter_through (gate : LogGate) (e : Exit) {severity : Severity}
    (h : severity = .warning ∨ severity = .error) :
    (e.through gate).log.filter (·.severity = severity)
      = e.log.filter (·.severity = severity) := by
  rw [Exit.through, List.filter_filter]
  refine List.filter_congr fun entry _ => ?_
  by_cases hentry : entry.severity = severity
  · rw [isShown_of_severity h hentry, Bool.and_true]
  · simp [hentry]

@[simp] theorem Exit.warnings_through (gate : LogGate) (e : Exit) :
    (e.through gate).warnings = e.warnings :=
  filter_through gate e (Or.inl rfl)

@[simp] theorem Exit.errors_through (gate : LogGate) (e : Exit) :
    (e.through gate).errors = e.errors :=
  filter_through gate e (Or.inr rfl)

/-- **What a run of the tool does**, from a state of the disk. -/
structure Effect (disk : Disk (StateM σ)) (place? : σ → Bytes → Option ι)
    (node? : σ → ι → Option Node) (action : Action) (settings : Settings) (path : Bytes) (s : σ)
    (e : Exit) (s' : σ) : Prop where
  /-- It succeeds exactly if the action makes something of the input, and this can be written where
  it is to be written. -/
  success : e.code = 0 ↔ ∃ product ds, Yields disk s action settings path product ds ∧
    ∀ target, Target settings path action (some target) → Writes disk s target product
  /-- A success has no errors.  What has been made is where it is to be, and nothing else has
  changed; or it is shown, and nothing has changed. -/
  result : e.code = 0 → e.errors = [] ∧
    ∀ product ds, Yields disk s action settings path product ds →
      (∀ target, Target settings path action (some target) →
        Replaced place? node? target product s s') ∧
      (Target settings path action none → s' = s ∧ e.output = product)
  /-- A failure has one error and changes nothing. -/
  failure : e.code ≠ 0 → e.code = 1 ∧ e.errors.length = 1 ∧ s' = s
  /-- The diagnostics of what was made are the warnings, also when it cannot be written. -/
  warned : ∀ product ds, Yields disk s action settings path product ds →
    e.warnings = ds.map (Diagnostic.logEntry path)
  silent : (∀ product ds, ¬ Yields disk s action settings path product ds) → e.warnings = []

theorem Effect.through {s' : σ} {e : Exit}
    (h : Effect disk place? node? action settings path s e s') (gate : LogGate) :
    Effect disk place? node? action settings path s (e.through gate) s' := by
  refine ⟨h.success, ?_, ?_, ?_, ?_⟩
  · rw [Exit.errors_through]
    exact h.result
  · rw [Exit.errors_through]
    exact h.failure
  · rw [Exit.warnings_through]
    exact h.warned
  · rw [Exit.warnings_through]
    exact h.silent

end Actions

/-! ## The whole tool -/

end Tool

end HackAssembly
