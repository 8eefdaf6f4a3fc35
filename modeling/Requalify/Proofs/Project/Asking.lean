import Requalify.Project
import Requalify.Proofs.Holdings

/-!
Reading a project changes no file, and each source is what its file holds. Actions that only ask a disk
are put together from smaller ones.
-/

namespace Requalify

/-- Actions on a disk whose states are in `σ`, beside a state in `τ`. -/
abbrev Action (τ σ : Type) := StateT τ (StateM σ)

section Reading

variable {σ τ V α β : Type} (view : σ → V)

/-- What the action does to what is seen of the disk, and answers, is right. -/
def Acts (action : Action τ σ α) (right : V → α → V → Prop) : Prop :=
  ∀ t s, right (view s) ((action.run t).run s).1.1 (view ((action.run t).run s).2)

/-- The action changes nothing that is seen of the disk, and its answer is right for that. -/
def Asks (action : Action τ σ α) (right : V → α → Prop) : Prop :=
  Acts view action fun held answer next => next = held ∧ right held answer

/-- As `Asks`, for the answers of an action that does not fail. -/
def Yields (action : ExceptT RunError (Action τ σ) α) (right : V → α → Prop) : Prop :=
  Asks view action.run fun held answer => ∀ value, answer = .ok value → right held value

variable {view}

theorem Acts.bind {middle : V → α → V → Prop}
    {right : V → β → V → Prop} {action : Action τ σ α} {next : α → Action τ σ β}
    (first : Acts view action middle) (second : ∀ value held, Acts view (next value)
      fun between answer after => middle held value between → right held answer after) :
    Acts view (action >>= next) right :=
  fun t s => second _ (view s) ((action.run t).run s).1.2 ((action.run t).run s).2 (first t s)

namespace Asks

theorem pure {right : V → α → Prop} {value : α} (isRight : ∀ held, right held value) :
    Asks view (Pure.pure value : Action τ σ α) right :=
  fun _ _ => ⟨rfl, isRight _⟩

/-- Go on after reading with an action that need not be one. -/
theorem andThen {middle : V → α → Prop} {right : V → β → V → Prop}
    {action : Action τ σ α} {next : α → Action τ σ β} (first : Asks view action middle)
    (second : ∀ value, Acts view (next value) fun held answer after =>
      middle held value → right held answer after) :
    Acts view (action >>= next) right :=
  first.bind fun value _ t s ⟨same, isMiddle⟩ => same ▸ second value t s (same ▸ isMiddle)

theorem bind {middle : V → α → Prop} {right : V → β → Prop}
    {action : Action τ σ α} {next : α → Action τ σ β} (first : Asks view action middle)
    (second : ∀ value, Asks view (next value) fun held answer => middle held value → right held answer) :
    Asks view (action >>= next) right :=
  first.andThen fun value t s isMiddle => ⟨(second value t s).1, (second value t s).2 isMiddle⟩

theorem mono {weak strong : V → α → Prop} {action : Action τ σ α}
    (asks : Asks view action strong) (weaker : ∀ held answer, strong held answer → weak held answer) :
    Asks view action weak :=
  fun t s => ⟨(asks t s).1, weaker _ _ (asks t s).2⟩

end Asks

namespace Yields

theorem pure {right : V → α → Prop} {value : α} (isRight : ∀ held, right held value) :
    Yields view (Pure.pure value : ExceptT RunError (Action τ σ) α) right :=
  Asks.pure fun held _ same => Except.ok.inj same ▸ isRight held

theorem throw (error : RunError) (right : V → α → Prop) :
    Yields view (MonadExcept.throw error : ExceptT RunError (Action τ σ) α) right :=
  Asks.pure fun _ _ same => by cases same

theorem lift {action : Action τ σ α} {right : V → α → Prop}
    (asks : Asks view action right) :
    Yields view (monadLift action : ExceptT RunError (Action τ σ) α) right :=
  fun t s => ⟨(asks t s).1, fun _ same => Except.ok.inj same ▸ (asks t s).2⟩

theorem bind {middle : V → α → Prop} {right : V → β → Prop}
    {action : ExceptT RunError (Action τ σ) α} {next : α → ExceptT RunError (Action τ σ) β}
    (first : Yields view action middle)
    (second : ∀ value, Yields view (next value) fun held answer =>
      middle held value → right held answer) :
    Yields view (action >>= next) right := by
  unfold Yields
  rw [ExceptT.run_bind]
  refine Asks.bind first fun answer => ?_
  cases answer with
  | error error => exact Asks.pure fun held isMiddle _ same => by cases same
  | ok value =>
      exact (second value).mono fun held answer isRight isMiddle other same =>
        isRight other same (isMiddle value rfl)

theorem mono {weak strong : V → α → Prop} {action : ExceptT RunError (Action τ σ) α}
    (yields : Yields view action strong) (weaker : ∀ held answer, strong held answer → weak held answer) :
    Yields view action weak :=
  Asks.mono yields fun held _ isRight value same => weaker held value (isRight value same)

theorem mapM {right : V → β → Prop} {action : α → ExceptT RunError (Action τ σ) β}
    (each : ∀ value, Yields view (action value) right) (values : List α) :
    Yields view (values.mapM action) fun held answers => ∀ answer ∈ answers, right held answer := by
  induction values with
  | nil => exact pure fun held answer member => absurd member List.not_mem_nil
  | cons value values ih =>
      rw [List.mapM_cons]
      refine bind (each value) fun first => bind ih fun others => pure fun held allRight isRight => ?_
      exact List.forall_mem_cons.mpr ⟨isRight, allRight⟩

end Yields

end Reading

section Asking

variable {σ τ File : Type} [DecidableEq File] {view : σ → Holdings File} {disk : Disk (StateM σ)}
  (lawful : disk.Lawful view)

include lawful

theorem Disk.readText_asks (path : FilePath) :
    Asks view (disk.beside.readText path : Action τ σ _) fun held answer =>
      ∀ text, answer = .ok text → held.Holds path text := by
  have asks : Asks view (disk.beside.read path : Action τ σ _) fun held answer =>
      ∀ content, answer = .ok content →
        ∃ file, held.named path = some file ∧ held.content file = content :=
    fun _ s => ⟨lawful.read path s, lawful.read_ok path s⟩
  refine asks.bind fun answer => ?_
  cases answer with
  | error cause => exact .pure fun held _ text same => by cases same
  | ok content =>
      dsimp only
      split
      next text decoded =>
        refine .pure fun held isRead other same => ?_
        obtain rfl := Except.ok.inj same
        obtain ⟨file, named, known⟩ := isRead content rfl
        simp only [String.fromUTF8?] at decoded
        split at decoded
        next valid =>
          obtain rfl := Option.some.inj decoded
          exact ⟨file, named, known⟩
        next => simp at decoded
      next => exact .pure fun held _ text same => by cases same

namespace Project

theorem isFile_asks (path : FilePath) :
    Asks view (disk.beside.isFile path : Action τ σ _) fun _ _ => True :=
  fun _ s => ⟨lawful.isFile path s, trivial⟩

theorem isDirectory_asks (path : FilePath) :
    Asks view (disk.beside.isDirectory path : Action τ σ _) fun _ _ => True :=
  fun _ s => ⟨lawful.isDirectory path s, trivial⟩

theorem discover_yields (root : FilePath) (filter : FileFilter) :
    Yields view (discover (m := Action τ σ) disk.beside root filter) fun _ _ => True := by
  have asks : Asks view (disk.beside.filesBelow root entersDirectory : Action τ σ _) fun _ _ => True :=
    fun _ s => ⟨lawful.filesBelow root entersDirectory s, trivial⟩
  refine .bind (.lift asks) fun answer => ?_
  cases answer with
  | error failure => exact Yields.throw _ _
  | ok paths => exact .pure fun _ _ => trivial

theorem locate_yields (root path : FilePath) :
    Yields view (locate (m := Action τ σ) disk.beside root path) fun _ _ => True := by
  refine .bind (.lift (isFile_asks lawful _)) fun isFile => ?_
  cases isFile with
  | true => exact .pure fun _ _ => trivial
  | false => exact .throw _ _

theorem select_yields (root : FilePath) (asked : List FilePath) (filter : FileFilter) :
    Yields view (select (m := Action τ σ) disk.beside root asked filter) fun _ _ => True := by
  unfold select
  split
  next => exact discover_yields lawful root filter
  next => exact .bind (.mapM (locate_yields lawful root) asked) fun _ => .pure fun _ _ => trivial

theorem readText_yields (path : FilePath) :
    Yields view (readText (m := Action τ σ) disk.beside path) fun held text => held.Holds path text := by
  refine .bind (.lift (Disk.readText_asks lawful path)) fun answer => ?_
  cases answer with
  | error cause => exact .throw _ _
  | ok text => exact .pure fun held isRead => isRead text rfl

theorem loadSource_yields (root path : FilePath) :
    Yields view (loadSource (m := Action τ σ) disk.beside root path) fun held source =>
      held.Holds source.path source.text :=
  .bind (locate_yields lawful root path) fun full =>
    .bind (readText_yields lawful full) fun _ => .pure fun _ holds _ => holds

theorem readSettings_yields (path : FilePath) :
    Yields view (readSettings (m := Action τ σ) disk.beside path) fun _ _ => True := by
  refine .bind (.lift (Disk.readText_asks lawful path)) fun answer => ?_
  cases answer with
  | error cause => exact .throw _ _
  | ok text =>
      dsimp only
      split
      next => exact .pure fun _ _ => trivial
      next => exact .throw _ _

theorem settings_yields (root : FilePath) (file : Option FilePath) :
    Yields view (settings (m := Action τ σ) disk.beside root file) fun _ _ => True := by
  cases file with
  | some path => exact readSettings_yields lawful path
  | none =>
      have asks : Asks view (disk.beside.exists? (settingsPath root) : Action τ σ _) fun _ _ => True :=
        .bind (isFile_asks lawful _) fun _ => .bind (isDirectory_asks lawful _) fun _ =>
          .pure fun _ _ _ => trivial
      refine .bind (.lift asks) fun known => ?_
      cases known with
      | true => exact Yields.mono (readSettings_yields lawful _) fun _ _ _ _ => trivial
      | false => exact .pure fun _ _ => trivial

theorem loadHeader_yields (root : FilePath) (header : String) :
    Yields view (loadHeader (m := Action τ σ) disk.beside root header) fun _ _ => True :=
  .bind (locate_yields lawful root _) fun full =>
    .mono (readText_yields lawful full) fun _ _ _ _ => trivial

/-- Reading a project leaves the files alone, and each source is what its file holds. -/
theorem contents_yields (root : FilePath) (settingsFile : Option FilePath) (asked : List FilePath) :
    Yields view (contents (m := Action τ σ) disk.beside root settingsFile asked) fun held contents =>
      ∀ source ∈ contents.sources, held.Holds source.path source.text := by
  refine .bind (.lift (isDirectory_asks lawful root)) fun isDirectory => ?_
  cases isDirectory with
  | false => exact Yields.throw _ _
  | true =>
      refine .bind (settings_yields lawful root settingsFile) fun settings => ?_
      dsimp only
      cases FileFilter.ofSettings settings.files with
      | error cause => exact Yields.throw _ _
      | ok filter =>
          refine .bind (select_yields lawful root asked filter) fun paths => ?_
          refine .bind (.mapM (loadSource_yields lawful root) paths) fun sources => ?_
          refine .bind (.mapM (loadHeader_yields lawful root) _) fun headers => ?_
          exact .pure fun held _ known _ _ _ => known

end Project

end Asking

end Requalify
