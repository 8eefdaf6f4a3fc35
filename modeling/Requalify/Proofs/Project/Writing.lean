import Requalify.Project.Run
import Requalify.Proofs.Patch.Order
import Requalify.Proofs.Project.Asking

/-!
What a run writes. The recorded sets are applied one by one, and a set changes a file only if it still
holds the text that was analyzed; so a file is changed at most once, also where several paths name it.
-/

namespace Requalify

namespace Session

/-- All that is recorded was asked for by one of the sources. -/
def Records (session : Session) (sources : List Source) : Prop :=
  ∃ requests, session.store.Reflects requests ∧ ∀ request ∈ requests, request.1 ∈ sources

namespace Records

variable {session : Session} {sources : List Source} {source : Source}

theorem add (records : session.Records sources) (member : source ∈ sources) {edit : Edit}
    {next : Session} {outcome : AddOutcome} (added : session.add source edit = .ok (next, outcome)) :
    next.Records sources := by
  obtain ⟨requests, reflects, known⟩ := records
  rcases reflects.add source edit.patch with ⟨-, store, other, accepted, grown⟩ | ⟨-, conflict, refused⟩
  · have stored : next.store = store := by
      unfold Session.add at added
      rw [accepted] at added
      cases other <;> cases added <;> rfl
    refine ⟨_, stored ▸ grown, fun request isRequest => ?_⟩
    rcases List.mem_append.mp isRequest with old | new
    · exact known request old
    · rw [List.mem_singleton.mp new]
      exact member
  · simp [Session.add, refused] at added

theorem record (records : session.Records sources) (member : source ∈ sources) (report : UnitReport)
    (edits : List (Option Edit)) : (session.record source report edits).1.Records sources := by
  induction edits generalizing session report with
  | nil => exact records
  | cons asked rest ih =>
      cases asked with
      | none => exact ih records _
      | some edit =>
          rw [Session.record]
          split
          next => exact records
          next next outcome added => exact ih (records.add member added) _

theorem runFrom (records : session.Records sources) {tool : Tool} {policy : Policy}
    {analyze : Source → Except RunError Matches} (reports : Array UnitReport) {rest : List Source}
    (known : ∀ source ∈ rest, source ∈ sources) :
    (Session.runFrom tool policy analyze session reports rest).1.Records sources := by
  induction rest generalizing session reports with
  | nil => exact records
  | cons source rest ih =>
      obtain ⟨member, others⟩ := List.forall_mem_cons.mp known
      have unit : (runUnit tool policy analyze session source).1.Records sources := by
        unfold runUnit
        split
        next => exact records
        next => exact records.record member _ _
      rw [Session.runFrom]
      split
      next next error failed =>
        rw [failed] at unit
        exact unit
      next next report done =>
        rw [done] at unit
        exact ih unit _ others

end Records

theorem run_records (tool : Tool) (policy : Policy) (analyze : Source → Except RunError Matches)
    (sources : List Source) : (run tool policy analyze sources).1.Records sources :=
  Records.runFrom ⟨[], Store.reflects_empty, by simp⟩ #[] fun _ => id

end Session

/-- Each recorded set is for the text of a source. -/
theorem Project.source_of_recorded {tool : Tool} {contents : Contents} {set : PatchSet}
    (member : set ∈ (record tool contents).1.store.toSets) :
    ∃ source ∈ contents.sources, source.path = set.path ∧ source.digest = set.digest := by
  obtain ⟨requests, reflects, known⟩ := Session.run_records tool contents.policy
    (fun source => .ok (contents.codebase.analyze source)) contents.sources
  obtain ⟨request, asked, path, -, digest⟩ :=
    reflects.header set (List.mem_filter.mp (List.mem_mergeSort.mp member)).1
  exact ⟨request.1, known request asked, path.symm, digest.symm⟩

namespace Project

variable {σ τ File : Type} [DecidableEq File] {view : σ → Holdings File} {disk : Disk (StateM σ)}
  {screen : Screen (Action τ σ)}

/-- Showing texts changes nothing that is seen of the disk. -/
def Screen.Discreet {V : Type} (screen : Screen (Action τ σ)) (view : σ → V) : Prop :=
  ∀ text, Asks view (screen text) fun _ _ => True

/-- What became of a patch set on a disk, and what the disk holds then. -/
inductive Applied (overwrite : Bool) (set : PatchSet) (held : Holdings File) :
    FileStatus → Holdings File → Prop
  | failed (cause : RunError) : Applied overwrite set held (.failed cause) held
  | shown (kept : overwrite = false) : Applied overwrite set held .shown held
  | written {file : File} {text after : String} (asked : overwrite = true)
      (named : held.named set.path = some file) (known : held.content file = text.toUTF8)
      (current : digest (Text.bytes text) = set.digest)
      (spliced : Patch.splice text set.patches = .ok after) :
      Applied overwrite set held .written (held.put file after.toUTF8)

theorem showAll_asks {V : Type} {view : σ → V} (discreet : screen.Discreet view)
    (texts : List String) :
    Asks view (showAll screen texts) fun _ _ => True := by
  induction texts with
  | nil => exact .pure fun _ => trivial
  | cons text rest ih =>
      refine (discreet text).bind fun answer => ?_
      cases answer with
      | error cause => exact .pure fun _ _ => trivial
      | ok _ => exact ih.mono fun _ _ _ _ => trivial

theorem ofSet_asks (lawful : disk.Lawful view) (set : PatchSet) :
    Asks view (PatchedFile.ofSet disk.beside set : Action τ σ _) fun held answer =>
      ∀ file, answer = .ok file → ∃ text, held.Holds set.path text ∧ PatchedFile.ofText set text = .ok file := by
  refine (Disk.readText_asks lawful set.path).bind fun answer => ?_
  cases answer with
  | error cause => exact .pure fun _ _ file same => by cases same
  | ok text => exact .pure fun held holds file same => ⟨text, holds text rfl, same⟩

theorem ofText_ok {set : PatchSet} {text : String} {file : PatchedFile}
    (patched : PatchedFile.ofText set text = .ok file) : digest (Text.bytes text) = set.digest ∧
      Patch.splice text set.patches = .ok file.after ∧ file.path = set.path := by
  unfold PatchedFile.ofText at patched
  dsimp only at patched
  split at patched
  next => cases patched
  next current =>
    split at patched
    next => cases patched
    next after spliced =>
      obtain rfl := Except.ok.inj patched
      exact ⟨not_not.mp current, spliced, rfl⟩

theorem write_acts (lawful : disk.Lawful view) (file : PatchedFile) :
    Acts view (file.write disk.beside : Action τ σ _) fun held answer next =>
      (∀ cause, answer = .error cause → next = held) ∧
        (answer = .ok () → ∀ place, held.named file.path = some place →
          next = held.put place file.after.toUTF8) := by
  intro t s
  change (∀ cause, ((disk.write file.path file.after.toUTF8).run s).1.mapError _ = .error cause →
      view ((disk.write file.path file.after.toUTF8).run s).2 = view s) ∧
    (((disk.write file.path file.after.toUTF8).run s).1.mapError _ = .ok () →
      ∀ place, (view s).named file.path = some place →
        view ((disk.write file.path file.after.toUTF8).run s).2 =
          (view s).put place file.after.toUTF8)
  cases answered : ((disk.write file.path file.after.toUTF8).run s).1 with
  | error cause =>
      constructor
      · intro _ _
        exact lawful.write_error _ _ s cause answered
      · intro same
        cases same
  | ok _ =>
      constructor
      · intro _ same
        cases same
      · intro _ place
        exact lawful.write_ok _ _ s place answered

/-- A set is written only over the text that it was made for. -/
theorem applySet_acts (lawful : disk.Lawful view) (discreet : screen.Discreet view) (mode : OutputMode)
    (set : PatchSet) :
    Acts view (applySet disk.beside screen mode set) fun held result next =>
      result.file = set.relativePath ∧ result.patches = set.patches.length ∧
        Applied mode.overwrite set held result.status next := by
  refine (ofSet_asks lawful set).andThen fun answer => ?_
  cases answer with
  | error cause => exact fun _ _ _ => ⟨rfl, rfl, .failed _⟩
  | ok file =>
      refine (showAll_asks discreet _).andThen fun answer => ?_
      cases answer with
      | error cause => exact fun _ _ _ _ => ⟨rfl, rfl, .failed _⟩
      | ok _ =>
          dsimp only
          split
          next asked =>
            refine (write_acts lawful file).bind fun answer held => ?_
            cases answer with
            | error cause =>
                intro t s same _ _
                have kept := same.1 cause rfl
                exact ⟨rfl, rfl, kept ▸ .failed _⟩
            | ok _ =>
                intro t s written _ isPatched
                obtain ⟨text, ⟨place, named, known⟩, patched⟩ := isPatched file rfl
                obtain ⟨current, spliced, path⟩ := ofText_ok patched
                refine ⟨rfl, rfl, ?_⟩
                have same := written.2 rfl place (path ▸ named)
                exact same ▸ .written asked named known current spliced
          next kept => exact fun _ _ _ _ => ⟨rfl, rfl, .shown (by simpa using kept)⟩

section Sequence

variable (disk screen) (mode : OutputMode)

omit [DecidableEq File] in
theorem applyAll_append (front back : List PatchSet) (t : τ) (s : σ) :
    let first := ((applyAll disk.beside screen mode front).run t).run s
    let second := ((applyAll disk.beside screen mode back).run first.1.2).run first.2
    ((applyAll disk.beside screen mode (front ++ back)).run t).run s =
      ((first.1.1 ++ second.1.1, second.1.2), second.2) := by
  simp only [applyAll, List.mapM_append]
  rfl

theorem applyAll_cons (set : PatchSet) (rest : List PatchSet) (t : τ) (s : σ) :
    let first := ((applySet disk.beside screen mode set).run t).run s
    let others := ((applyAll disk.beside screen mode rest).run first.1.2).run first.2
    ((applyAll disk.beside screen mode (set :: rest)).run t).run s =
      ((first.1.1 :: others.1.1, others.1.2), others.2) := by
  simp only [applyAll, List.mapM_cons]
  rfl

theorem applyAll_length (sets : List PatchSet) (t : τ) (s : σ) :
    (((applyAll disk.beside screen mode sets).run t).run s).1.1.length = sets.length := by
  induction sets generalizing t s with
  | nil => rfl
  | cons set rest ih => rw [applyAll_cons, List.length_cons, List.length_cons, ih]

/-- What the disk holds when the first `count` sets have been applied. -/
def heldAfter (view : σ → Holdings File) (sets : List PatchSet) (t : τ) (s : σ) (count : Nat) :
    Holdings File :=
  view (((applyAll disk.beside screen mode (sets.take count)).run t).run s).2

end Sequence

theorem applyAll_step (lawful : disk.Lawful view) (discreet : screen.Discreet view) (mode : OutputMode)
    {sets : List PatchSet} {index : Nat} {set : PatchSet} (found : sets[index]? = some set)
    (t : τ) (s : σ) :
    ∃ result, (((applyAll disk.beside screen mode sets).run t).run s).1.1[index]? = some result ∧
      result.file = set.relativePath ∧ result.patches = set.patches.length ∧
      Applied mode.overwrite set (heldAfter disk screen mode view sets t s index) result.status
        (heldAfter disk screen mode view sets t s (index + 1)) := by
  obtain ⟨bound, rfl⟩ := List.getElem?_eq_some_iff.mp found
  have parts : sets = sets.take index ++ sets[index] :: sets.drop (index + 1) := by simp
  have next : sets.take (index + 1) = sets.take index ++ [sets[index]] := by simp
  generalize before : ((applyAll disk.beside screen mode (sets.take index)).run t).run s = first
  refine ⟨(((applySet disk.beside screen mode sets[index]).run first.1.2).run first.2).1.1, ?_, ?_⟩
  · have length := applyAll_length disk screen mode (sets.take index) t s
    rw [before, List.length_take_of_le (Nat.le_of_lt bound)] at length
    conv_lhs => rw [parts, applyAll_append, applyAll_cons, before]
    simp [← length]
  · have acts := applySet_acts lawful discreet mode sets[index] first.1.2 first.2
    simp only [heldAfter, next, applyAll_append, applyAll_cons, before]
    exact acts

namespace Applied

variable {overwrite : Bool} {set : PatchSet} {held next : Holdings File} {status : FileStatus}

theorem named (applied : Applied overwrite set held status next) : next.named = held.named := by
  cases applied <;> rfl

/-- Only a written set changes files. -/
theorem unchanged (applied : Applied overwrite set held status next)
    (notWritten : status ≠ .written ∨ overwrite = false) : next = held := by
  cases applied with
  | failed | shown => rfl
  | written asked => simp [asked] at notWritten

end Applied

/-- The file holds a source, and the set makes another text of it. -/
structure Rewrites (sources : List Source) (held : Holdings File) (file : File) (set : PatchSet)
    (source : Source) (after : String) : Prop where
  analyzed : source ∈ sources
  path : source.path = set.path
  named : held.named set.path = some file
  content : held.content file = source.text.toUTF8
  spliced : Patch.splice source.text set.patches = .ok after
  changed : after ≠ source.text

/-- No patched text has the digest of the source that it was made from, unless it is that source. -/
def Tells (sources : List Source) (sets : List PatchSet) : Prop :=
  ∀ source ∈ sources, ∀ set ∈ sets, ∀ after, Patch.splice source.text set.patches = .ok after →
    digest (Text.bytes after) = source.digest → after = source.text

instance (sources : List Source) (sets : List PatchSet) : Decidable (Tells sources sets) :=
  decidable_of_iff
    (∀ source ∈ sources, ∀ set ∈ sets, ∀ after ∈ (Patch.splice source.text set.patches).toOption,
      digest (Text.bytes after) = source.digest → after = source.text) <| by
    have spliced (source : Source) (set : PatchSet) (after : String) :
        after ∈ (Patch.splice source.text set.patches).toOption ↔
          Patch.splice source.text set.patches = .ok after := by
      cases Patch.splice source.text set.patches <;> simp [Except.toOption]
    simp only [spliced, Tells]

/-- What a set does to a file whose analyzed text is known: nothing, or it patches what has the digest of
that text. -/
theorem Applied.content_cases {overwrite : Bool} {set : PatchSet} {start held next : Holdings File}
    {status : FileStatus} (applied : Applied overwrite set held status next)
    (same : held.named = start.named) {source : Source} (holds : start.Holds source.path source.text)
    (path : source.path = set.path) (digestEq : source.digest = set.digest) (file : File) :
    next.content file = held.content file ∨
    status = .written ∧ start.named set.path = some file ∧ start.content file = source.text.toUTF8 ∧
      ∃ text after, held.content file = text.toUTF8 ∧ digest (Text.bytes text) = source.digest ∧
        Patch.splice text set.patches = .ok after ∧ next.content file = after.toUTF8 := by
  cases applied with
  | failed | shown => exact .inl rfl
  | @written place text after _ named known current spliced =>
      by_cases isFile : file = place
      · subst isFile
        obtain ⟨other, isNamed, content⟩ := holds
        rw [path, ← same, named, Option.some.injEq] at isNamed
        subst isNamed
        exact .inr ⟨rfl, same ▸ named, content, text, after, known, current.trans digestEq.symm,
          spliced, Function.update_self ..⟩
      · exact .inl (Function.update_of_ne isFile ..)

theorem text_eq {left right : String} (same : left.toUTF8 = right.toUTF8) : left = right :=
  String.toByteArray_inj.mp same

section History

variable (lawful : disk.Lawful view) (discreet : screen.Discreet view) (mode : OutputMode)
  {sources : List Source} {sets : List PatchSet} (t : τ) (s : σ)

include lawful discreet

theorem heldAfter_named {count : Nat} (bound : count ≤ sets.length) :
    (heldAfter disk screen mode view sets t s count).named = (view s).named := by
  induction count with
  | zero => rfl
  | succ count ih =>
      obtain ⟨_, -, -, -, applied⟩ := applyAll_step lawful discreet mode
        (List.getElem?_eq_getElem (Nat.lt_of_succ_le bound)) t s
      rw [applied.named, ih (Nat.le_of_succ_le bound)]

/-- A file is never changed, or once: by a written set and from the text that was analyzed. -/
theorem heldAfter_content (analyzed : ∀ source ∈ sources, (view s).Holds source.path source.text)
    (recorded : ∀ set ∈ sets, ∃ source ∈ sources, source.path = set.path ∧ source.digest = set.digest)
    (tells : Tells sources sets) (file : File) {limit : Nat} (inSets : limit ≤ sets.length) :
    (∀ count ≤ limit,
      (heldAfter disk screen mode view sets t s count).content file = (view s).content file) ∨
    ∃ index < limit, ∃ set source after, sets[index]? = some set ∧
      ((((applyAll disk.beside screen mode sets).run t).run s).1.1[index]?).map (·.status) =
        some .written ∧
      Rewrites sources (view s) file set source after ∧
      ∀ count ≤ limit, (heldAfter disk screen mode view sets t s count).content file =
        if count ≤ index then source.text.toUTF8 else after.toUTF8 := by
  -- What holds of the first sets holds of one more.
  induction limit with
  | zero => exact .inl fun count bound => by rw [Nat.le_zero.mp bound]; rfl
  | succ limit ih =>
      have found := List.getElem?_eq_getElem (Nat.lt_of_succ_le inSets)
      generalize sets[limit] = set at found
      have member : set ∈ sets := List.mem_of_getElem? found
      obtain ⟨result, given, -, -, applied⟩ := applyAll_step lawful discreet mode found t s
      have same := heldAfter_named lawful discreet mode t s (Nat.le_of_succ_le inSets)
      obtain ⟨source, known, path, digestEq⟩ := recorded set member
      have upTo {count : Nat} (bound : count ≤ limit + 1) : count ≤ limit ∨ count = limit + 1 := by omega
      rcases ih (Nat.le_of_succ_le inSets) with before | ⟨index, less, other, original, after, first,
        status, rewrites, before⟩
      · rcases applied.content_cases same (analyzed source known) path digestEq file with
          kept | ⟨written, named, content, text, after, holds, current, spliced, changed⟩
        · refine .inl fun count bound => (upTo bound).elim (before count) ?_
          rintro rfl
          rw [kept, before limit (Nat.le_refl _)]
        · obtain rfl : text = source.text := by
            rw [before limit (Nat.le_refl _), content] at holds
            exact text_eq holds.symm
          by_cases identical : after = source.text
          · refine .inl fun count bound => (upTo bound).elim (before count) ?_
            rintro rfl
            rw [changed, identical, content]
          · refine .inr ⟨limit, Nat.lt_succ_self _, set, source, after, found, ?_,
              ⟨known, path, named, content, spliced, identical⟩, fun count bound => ?_⟩
            · rw [given, Option.map_some, written]
            · rcases upTo bound with low | rfl
              · rw [before count low, content, if_pos low]
              · rw [changed, if_neg (Nat.not_succ_le_self _)]
      · -- The file has changed already, so that the digest is another one.
        have now := before limit (Nat.le_refl _)
        rw [if_neg (Nat.not_le_of_lt less)] at now
        rcases applied.content_cases same (analyzed source known) path digestEq file with
          kept | ⟨-, -, content, text, -, holds, current, -, -⟩
        · refine .inr ⟨index, Nat.lt_succ_of_lt less, other, original, after, first, status, rewrites,
            fun count bound => (upTo bound).elim (before count) ?_⟩
          rintro rfl
          rw [kept, now, if_neg (by omega)]
        · obtain rfl : text = after := text_eq (holds.symm.trans now)
          have original_eq : original.text = source.text :=
            text_eq (rewrites.content.symm.trans content)
          have unchanged := tells original rewrites.analyzed other (List.mem_of_getElem? first) _
            rewrites.spliced (by rw [current, Source.digest, Source.digest, original_eq])
          exact absurd unchanged rewrites.changed

end History

end Project

end Requalify
