import Mathlib
import Requalify.FileFilter
import Requalify.Proofs.FilePath
import Requalify.Proofs.ModuleName.Spelling

/-!
Which files share a name. Several spellings of a path go into one name, and two files share a name just if
their paths are linked by the steps in which the name forgets something. Between paths in lower case it
forgets the extension only, since the capitals of the name show where their components begin.
-/

namespace Requalify

namespace ModuleName

/-- The components that go into the name of a file. -/
def parts (path : String) : List (List Char) :=
  components (stem (withSlashes path.toList))

/-- One step in which a name forgets how its components were spelled. -/
inductive Confused : List (List Char) → List (List Char) → Prop
  /-- A capital may be a spelled one, or begin a component. -/
  | merged (first next : List Char) (rest : List (List Char)) :
      Confused (first :: next :: rest) ((first ++ capitalize next) :: rest)
  /-- An underscore may stand for any character that is not for identifiers. -/
  | replaced (before : List Char) (c : Char) (after : List Char) (other : isIdentifierChar c = false) :
      Confused [before ++ c :: after] [before ++ '_' :: after]
  /-- An underscore in front of a digit may be a spelled one. -/
  | led (digit : Char) (rest : List Char) (isDigit : digit.isDigit = true) :
      Confused [digit :: rest] ['_' :: digit :: rest]
  /-- A path may have no component that counts. -/
  | nameless : Confused [] [['_']]

theorem ne_nil_of_mem_parts {path : String} {part : List Char} (member : part ∈ parts path) :
    part ≠ [] := by
  rintro rfl
  simp [parts, components, FilePath.isIdle] at member

theorem joined_singleton (part : List Char) : joined [part] = part := by
  simp [joined]

theorem joined_merged (first next : List Char) (rest : List (List Char)) :
    joined ((first ++ capitalize next) :: rest) = joined (first :: next :: rest) := by
  simp [joined]

theorem Confused.sanitize_eq {all other : List (List Char)} (confused : Confused all other) :
    sanitize (joined all) = sanitize (joined other) := by
  cases confused with
  | merged first next rest => rw [joined_merged]
  | replaced before c after isOther =>
      have same : safe c = safe '_' := by simp [safe, isOther]
      simp only [joined_singleton, ModuleName.sanitize_eq, List.map_append, List.map_cons, same]
  | led digit rest isDigit =>
      have kept : safe digit = digit := safe_of_identifierChar (by
        simp [isIdentifierChar, Char.isAlphanum, isDigit])
      have underscore : safe '_' = '_' := rfl
      simp only [joined_singleton, ModuleName.sanitize_eq, List.map_cons, kept, underscore,
        ModuleName.led, isDigit, if_true]
      rfl
  | nameless => rfl

theorem eqvGen_joined (first : List Char) (rest : List (List Char)) :
    Relation.EqvGen Confused (first :: rest) [joined (first :: rest)] := by
  induction rest generalizing first with
  | nil =>
      rw [joined_singleton]
      exact .refl _
  | cons next rest ih =>
      have later := ih (first ++ capitalize next)
      rw [joined_merged] at later
      exact .trans _ _ _ (.rel _ _ (.merged first next rest)) later

theorem eqvGen_safe (before text : List Char) :
    Relation.EqvGen Confused [before ++ text] [before ++ text.map safe] := by
  induction text generalizing before with
  | nil => exact .refl _
  | cons c text ih =>
      have later := ih (before ++ [safe c])
      rw [List.append_assoc, List.append_assoc] at later
      refine .trans _ _ _ ?_ later
      cases isPart : isIdentifierChar c with
      | true =>
          rw [safe_of_identifierChar isPart]
          exact .refl _
      | false =>
          have here := Confused.replaced before c text isPart
          rw [show safe c = '_' by simp [safe, isPart]]
          exact .rel _ _ here

theorem eqvGen_led {text : List Char} (something : text ≠ []) :
    Relation.EqvGen Confused [text] [led text] := by
  cases text with
  | nil => exact absurd rfl something
  | cons first rest =>
      rw [led]
      split
      next isDigit => exact .rel _ _ (.led first rest isDigit)
      next => exact .refl _

/-- Every path is linked with the name of its file. -/
theorem eqvGen_sanitize {all : List (List Char)} (spelled : ∀ part ∈ all, part ≠ []) :
    Relation.EqvGen Confused all [sanitize (joined all)] := by
  cases all with
  | nil => exact .rel _ _ .nameless
  | cons first rest =>
      have something : (joined (first :: rest)).map safe ≠ [] := by
        simp [joined, spelled first List.mem_cons_self]
      rw [sanitize_eq]
      exact .trans _ _ _ (eqvGen_joined first rest)
        (.trans _ _ _ (eqvGen_safe [] _) (eqvGen_led something))

/-- A piece of a path that begins with a lower-case letter and goes on with such letters, digits and
underscores. -/
def isLowerWord : List Char → Bool
  | [] => false
  | first :: rest => first.isLower && rest.all fun c => c.isLower || c.isDigit || c == '_'

/-- All that stands between the slashes of the path, the extension aside, is such a word. -/
def IsLowerCase (path : String) : Prop :=
  '\\' ∉ path.toList ∧ ∀ piece ∈ FilePath.pieces (stem path.toList), isLowerWord piece = true

instance (path : String) : Decidable (IsLowerCase path) :=
  inferInstanceAs (Decidable (_ ∧ _))

theorem val_of_isLower {c : Char} (isLower : c.isLower = true) :
    97 ≤ c.val.toNat ∧ c.val.toNat ≤ 122 := by
  simpa [Char.isLower, UInt32.le_iff_toNat_le] using isLower

theorem toUpper_of_isLower {c : Char} (isLower : c.isLower = true) :
    Text.toUpper c = [c.toUpper] := by
  have bounds := val_of_isLower isLower
  rw [Text.toUpper, if_pos]
  change c.val.toNat < 128
  omega

theorem isUpper_toUpper {c : Char} (isLower : c.isLower = true) : c.toUpper.isUpper = true := by
  rw [Char.isUpper_toUpper_eq_isAlpha, Char.isAlpha, isLower, Bool.or_true]

theorem toUpper_inj {c d : Char} (isLower : c.isLower = true) (isLower' : d.isLower = true)
    (same : c.toUpper = d.toUpper) : c = d := by
  have back {c : Char} (isLower : c.isLower = true) : c.toUpper.toLower = c := by
    rw [Char.toLower_toUpper_eq_toLower,
      Char.toLower_eq_of_not_isUpper (Char.not_isUpper_of_isLower isLower)]
  rw [← back isLower, same, back isLower']

theorem not_isUpper_of_isDigit {c : Char} (digit : c.isDigit = true) : c.isUpper = false := by
  simp only [Char.isDigit, Bool.and_eq_true, decide_eq_true_eq, UInt32.le_iff_toNat_le, ge_iff_le] at digit
  simp only [Char.isUpper, UInt32.le_iff_toNat_le, ge_iff_le, decide_eq_false_iff_not]
  intro ⟨from_, _⟩
  have : '9'.val.toNat = 57 := rfl
  have : 'A'.val.toNat = 65 := rfl
  omega

theorem not_isDigit_of_isLower {c : Char} (isLower : c.isLower = true) : c.isDigit = false := by
  have bounds := val_of_isLower isLower
  have : '9'.val.toNat = 57 := rfl
  simp only [Char.isDigit, Bool.and_eq_false_iff, decide_eq_false_iff_not, UInt32.le_iff_toNat_le]
  omega

theorem exists_of_lowerWord {word : List Char} (isWord : isLowerWord word = true) :
    ∃ c rest, word = c :: rest ∧ c.isLower = true ∧ ∀ d ∈ rest, d.isUpper = false := by
  cases word with
  | nil => simp [isLowerWord] at isWord
  | cons c rest =>
      simp only [isLowerWord, Bool.and_eq_true, List.all_eq_true, Bool.or_eq_true, beq_iff_eq] at isWord
      obtain ⟨isLower, others⟩ := isWord
      refine ⟨c, rest, rfl, isLower, fun d member => ?_⟩
      rcases others d member with (lower | digit) | rfl
      · exact Bool.eq_false_iff.mpr (Char.not_isUpper_of_isLower lower)
      · exact not_isUpper_of_isDigit digit
      · rfl

theorem isLowerWord_free {word : List Char} (isWord : isLowerWord word = true) :
    ∀ c ∈ word, c.isUpper = false := by
  obtain ⟨c, rest, rfl, isLower, others⟩ := exists_of_lowerWord isWord
  exact List.forall_mem_cons.mpr ⟨Bool.eq_false_iff.mpr (Char.not_isUpper_of_isLower isLower), others⟩

theorem takeWhile_capitals {word : List Char} {rest : List (List Char)}
    (free : ∀ c ∈ word, c.isUpper = false) (words : ∀ part ∈ rest, isLowerWord part = true) :
    (word ++ rest.flatMap capitalize).takeWhile (!·.isUpper) = word := by
  rw [List.takeWhile_append_of_pos fun c member => by simp [free c member]]
  cases rest with
  | nil => simp
  | cons part rest =>
      obtain ⟨c, others, rfl, isLower, -⟩ := exists_of_lowerWord (words part List.mem_cons_self)
      simp [capitalize, toUpper_of_isLower isLower, isUpper_toUpper isLower]

/-- Capitals show where the components of a name begin. -/
theorem capitalized_inj {word word' : List Char} {rest rest' : List (List Char)}
    (free : ∀ c ∈ word, c.isUpper = false) (free' : ∀ c ∈ word', c.isUpper = false)
    (words : ∀ part ∈ rest, isLowerWord part = true) (words' : ∀ part ∈ rest', isLowerWord part = true)
    (same : word ++ rest.flatMap capitalize = word' ++ rest'.flatMap capitalize) :
    word = word' ∧ rest = rest' := by
  induction rest generalizing word word' rest' with
  | nil =>
      obtain rfl : word = word' := by
        rw [← takeWhile_capitals free words, same, takeWhile_capitals free' words']
      refine ⟨rfl, ?_⟩
      have tails := List.append_cancel_left same
      cases rest' with
      | nil => rfl
      | cons part' rest' =>
          obtain ⟨c, others, rfl, isLower, -⟩ := exists_of_lowerWord (words' part' List.mem_cons_self)
          simp [capitalize, toUpper_of_isLower isLower] at tails
  | cons part rest ih =>
      obtain rfl : word = word' := by
        rw [← takeWhile_capitals free words, same, takeWhile_capitals free' words']
      refine ⟨rfl, ?_⟩
      have tails := List.append_cancel_left same
      obtain ⟨isWord, restWords⟩ := List.forall_mem_cons.mp words
      obtain ⟨c, others, rfl, isLower, othersFree⟩ := exists_of_lowerWord isWord
      cases rest' with
      | nil => simp [capitalize, toUpper_of_isLower isLower] at tails
      | cons part' rest' =>
          obtain ⟨isWord', restWords'⟩ := List.forall_mem_cons.mp words'
          obtain ⟨c', others', rfl, isLower', othersFree'⟩ := exists_of_lowerWord isWord'
          simp only [List.flatMap_cons, capitalize, toUpper_of_isLower isLower,
            toUpper_of_isLower isLower', List.cons_append, List.cons.injEq,
            List.nil_append] at tails
          obtain rfl := toUpper_inj isLower isLower' tails.1
          obtain ⟨rfl, rfl⟩ := ih othersFree othersFree' restWords restWords' tails.2
          rfl

theorem joined_inj {all other : List (List Char)} (something : all ≠ []) (something' : other ≠ [])
    (words : ∀ part ∈ all, isLowerWord part = true) (words' : ∀ part ∈ other, isLowerWord part = true)
    (same : joined all = joined other) : all = other := by
  obtain ⟨first, rest, rfl⟩ := List.exists_cons_of_ne_nil something
  obtain ⟨first', rest', rfl⟩ := List.exists_cons_of_ne_nil something'
  obtain ⟨isWord, restWords⟩ := List.forall_mem_cons.mp words
  obtain ⟨isWord', restWords'⟩ := List.forall_mem_cons.mp words'
  obtain ⟨rfl, rfl⟩ := capitalized_inj (isLowerWord_free isWord) (isLowerWord_free isWord')
    restWords restWords' same
  rfl

theorem isIdentifierChar_of_mem_lowerWord {word : List Char} (isWord : isLowerWord word = true) :
    ∀ c ∈ word, isIdentifierChar c = true := by
  cases word with
  | nil => simp
  | cons c rest =>
      simp only [isLowerWord, Bool.and_eq_true, List.all_eq_true, Bool.or_eq_true] at isWord
      refine List.forall_mem_cons.mpr ⟨?_, fun d member => ?_⟩
      · simp [isIdentifierChar, Char.isAlphanum, Char.isAlpha, isWord.1]
      · have isPart := isWord.2 d member
        simp only [isIdentifierChar, Char.isAlphanum, Char.isAlpha, Bool.or_eq_true]
        exact isPart.imp_left (Or.imp_left .inr)

theorem isIdentifierChar_of_mem_capitalize {word : List Char} (isWord : isLowerWord word = true) :
    ∀ c ∈ capitalize word, isIdentifierChar c = true := by
  have parts := isIdentifierChar_of_mem_lowerWord isWord
  obtain ⟨c, rest, rfl, isLower, -⟩ := exists_of_lowerWord isWord
  rw [capitalize, toUpper_of_isLower isLower]
  refine List.forall_mem_cons.mpr ⟨?_, (List.forall_mem_cons.mp parts).2⟩
  simp [isIdentifierChar, Char.isAlphanum, Char.isAlpha, isUpper_toUpper isLower]

/-- A name that begins with a letter and has nothing to replace is written as it is. -/
theorem sanitize_joined {all : List (List Char)} (something : all ≠ [])
    (words : ∀ part ∈ all, isLowerWord part = true) : sanitize (joined all) = joined all := by
  obtain ⟨first, rest, rfl⟩ := List.exists_cons_of_ne_nil something
  obtain ⟨isWord, restWords⟩ := List.forall_mem_cons.mp words
  have kept : ∀ c ∈ joined (first :: rest), safe c = c := by
    intro c member
    refine safe_of_identifierChar ?_
    rcases List.mem_append.mp member with inFirst | inRest
    · exact isIdentifierChar_of_mem_lowerWord isWord c inFirst
    · obtain ⟨part, inRest, inPart⟩ := List.mem_flatMap.mp inRest
      exact isIdentifierChar_of_mem_capitalize (restWords part inRest) c inPart
  have same : (joined (first :: rest)).map safe = joined (first :: rest) :=
    (List.map_congr_left kept).trans (List.map_id _)
  obtain ⟨c, others, rfl, isLower, -⟩ := exists_of_lowerWord isWord
  rw [sanitize_eq, same, joined, List.cons_append, led, not_isDigit_of_isLower isLower]
  rfl

theorem parts_of_lowerCase {path : String} (isLowerCase : IsLowerCase path) :
    parts path = FilePath.pieces (stem path.toList) := by
  obtain ⟨noBackslash, words⟩ := isLowerCase
  have kept : withSlashes path.toList = path.toList := by
    refine (List.map_congr_left fun c member => ?_).trans (List.map_id _)
    rw [if_neg]
    · rfl
    · rintro rfl
      exact noBackslash member
  rw [parts, kept, components, List.filter_eq_self]
  intro piece member
  obtain ⟨c, rest, rfl, isLower, -⟩ := exists_of_lowerWord (words piece member)
  have letter : c ≠ '.' := by
    rintro rfl
    simp [Char.isLower] at isLower
  simp [FilePath.isIdle, letter]

end ModuleName

theorem moduleName_eq_iff_sanitize {path other : String} :
    moduleName path = moduleName other ↔
      ModuleName.sanitize (ModuleName.joined (ModuleName.parts path)) =
        ModuleName.sanitize (ModuleName.joined (ModuleName.parts other)) := by
  rw [moduleName, moduleName, String.ofList_inj]
  rfl

/-- Two files share a name just if their paths are linked by what a name forgets. Paths in lower case
share one just if they are the same up to the extension. -/
theorem moduleName_eq_iff (path other : String) :
    (moduleName path = moduleName other ↔
      Relation.EqvGen ModuleName.Confused (ModuleName.parts path) (ModuleName.parts other)) ∧
    (ModuleName.IsLowerCase path → ModuleName.IsLowerCase other →
      (moduleName path = moduleName other ↔
        ModuleName.stem path.toList = ModuleName.stem other.toList)) := by
  refine ⟨?_, fun isLowerCase isLowerCase' => ?_⟩
  · constructor
    · intro same
      have linked : Relation.EqvGen ModuleName.Confused (ModuleName.parts path) _ :=
        ModuleName.eqvGen_sanitize fun _ => ModuleName.ne_nil_of_mem_parts
      rw [moduleName_eq_iff_sanitize.mp same] at linked
      exact linked.trans _ _ _ (.symm _ _ (ModuleName.eqvGen_sanitize fun _ =>
        ModuleName.ne_nil_of_mem_parts))
    · intro linked
      have equivalence : Equivalence fun all other =>
          ModuleName.sanitize (ModuleName.joined all) = ModuleName.sanitize (ModuleName.joined other) :=
        ⟨fun _ => rfl, Eq.symm, Eq.trans⟩
      have same := linked.mono fun _ _ => ModuleName.Confused.sanitize_eq
      exact moduleName_eq_iff_sanitize.mpr (equivalence.eqvGen_iff.mp same)
  · rw [moduleName_eq_iff_sanitize, ModuleName.parts_of_lowerCase isLowerCase,
      ModuleName.parts_of_lowerCase isLowerCase',
      ModuleName.sanitize_joined (FilePath.pieces_ne_nil _) isLowerCase.2,
      ModuleName.sanitize_joined (FilePath.pieces_ne_nil _) isLowerCase'.2]
    constructor
    · intro same
      have pieces := ModuleName.joined_inj (FilePath.pieces_ne_nil _) (FilePath.pieces_ne_nil _)
        isLowerCase.2 isLowerCase'.2 same
      rw [← FilePath.joinPieces_pieces (ModuleName.stem path.toList), pieces,
        FilePath.joinPieces_pieces]
    · intro same
      rw [same]

theorem moduleName_eq_iff_notice :
    ModuleName.IsLowerCase "base/tf/notice.cpp" ∧ ModuleName.IsLowerCase "base/tf_notice.cpp" ∧
      moduleName "base/tf/notice.cpp" ≠ moduleName "base/tf_notice.cpp" := by
  have isLowerCase : ModuleName.IsLowerCase "base/tf/notice.cpp" := by decide +kernel
  have isLowerCase' : ModuleName.IsLowerCase "base/tf_notice.cpp" := by decide +kernel
  refine ⟨isLowerCase, isLowerCase', fun same => ?_⟩
  have stems := ((moduleName_eq_iff _ _).2 isLowerCase isLowerCase').mp same
  revert stems
  decide +kernel

/-- A file and its header share a name. -/
theorem moduleName_header :
    ¬∀ filter, FileFilter.ofSettings FileSettings.standard = .ok filter →
      ∀ path other : String, filter.accepts path = true → filter.accepts other = true →
        (∀ file ∈ [path, other], '\\' ∉ file.toList ∧
          ∀ piece ∈ FilePath.pieces file.toList, FilePath.isIdle piece = false) →
        path ≠ other → moduleName path ≠ moduleName other := by
  intro separate
  have different := separate ⟨FileSettings.standard.extensions, []⟩ rfl "tf/notice.h" "tf/notice.cpp"
    (by decide +kernel) (by decide +kernel) (by decide +kernel) (by decide)
  exact different (by decide +kernel)

end Requalify
