import Requalify.ModuleName
import Requalify.Proofs.Token.Names

/-!
What the name of a file looks like. It is always one word that the lexer takes whole; nothing keeps that
word from being a keyword.
-/

namespace Requalify

namespace ModuleName

theorem isNamePart_of_identifierChar {c : Char} (isPart : isIdentifierChar c = true) :
    Piece.isNamePart c = true := by
  simp only [isIdentifierChar, Bool.or_eq_true] at isPart
  simp only [Piece.isNamePart, Bool.or_eq_true]
  exact .inl isPart

/-- The character that stands for `c` in a name. -/
def safe (c : Char) : Char :=
  if isIdentifierChar c then c else '_'

theorem isIdentifierChar_safe (c : Char) : isIdentifierChar (safe c) = true := by
  unfold safe
  split
  next isPart => exact isPart
  next => rfl

theorem safe_of_identifierChar {c : Char} (isPart : isIdentifierChar c = true) : safe c = c := by
  simp [safe, isPart]

/-- A leading digit gets an underscore in front of it, and so does the empty text. -/
def led : List Char → List Char
  | [] => ['_']
  | first :: rest => if first.isDigit then '_' :: first :: rest else first :: rest

theorem sanitize_eq (text : List Char) : sanitize text = led (text.map safe) := by
  cases text with
  | nil => rfl
  | cons first rest => rfl

/-- Whatever a name is made from, it is spelled like one. -/
theorem sanitize_spelled (text : List Char) :
    ∃ c rest, sanitize text = c :: rest ∧ (c.isAlpha = true ∨ c = '_') ∧
      ∀ d ∈ rest, isIdentifierChar d = true := by
  rw [sanitize_eq]
  cases text with
  | nil => exact ⟨'_', [], rfl, .inr rfl, by simp⟩
  | cons first rest =>
      have parts : ∀ d ∈ (first :: rest).map safe, isIdentifierChar d = true := by
        intro d member
        obtain ⟨c, -, rfl⟩ := List.mem_map.mp member
        exact isIdentifierChar_safe c
      rw [List.map_cons] at parts ⊢
      rw [led]
      split
      next => exact ⟨'_', _, rfl, .inr rfl, parts⟩
      next digit =>
        obtain ⟨isPart, parts⟩ := List.forall_mem_cons.mp parts
        refine ⟨_, _, rfl, ?_, parts⟩
        simp only [isIdentifierChar, Char.isAlphanum, Bool.or_eq_true, beq_iff_eq] at isPart
        exact isPart.imp_left fun isAlphanum => isAlphanum.resolve_right digit

end ModuleName

theorem moduleName_spelled (path : String) :
    ∃ c rest, (moduleName path).toList = c :: rest ∧ (c.isAlpha = true ∨ c = '_') ∧
      ∀ d ∈ rest, ModuleName.isIdentifierChar d = true := by
  rw [moduleName, String.toList_ofList]
  exact ModuleName.sanitize_spelled _

/-- The name of a file can be written if it is no keyword. -/
theorem moduleName_isName {path : String} (free : moduleName path ∉ keywords) :
    IsName (moduleName path) := by
  obtain ⟨c, rest, text, start, parts⟩ := moduleName_spelled path
  refine ⟨⟨c, rest, text, ?_, fun d member => ?_⟩, by simpa using free⟩
  · simp only [Piece.isNameStart, Bool.or_eq_true, beq_iff_eq]
    exact .inl start
  · exact ModuleName.isNamePart_of_identifierChar (parts d member)

/-- The name of a file is a letter or an underscore with letters, digits and underscores behind it. The
lexer reads it as one token, an identifier unless a keyword is spelled this way. -/
theorem moduleName_reads (path : String) :
    (∃ c rest, (moduleName path).toList = c :: rest ∧ (c.isAlpha = true ∨ c = '_') ∧
      ∀ d ∈ rest, ModuleName.isIdentifierChar d = true) ∧
    tokenize (moduleName path) =
      [⟨if moduleName path ∈ keywords then .keyword else .identifier, moduleName path, 0⟩] := by
  refine ⟨moduleName_spelled path, ?_⟩
  obtain ⟨c, rest, text, start, parts⟩ := moduleName_spelled path
  have isStart : Piece.isNameStart c = true := by
    simp only [Piece.isNameStart, Bool.or_eq_true, beq_iff_eq]
    exact .inl start
  have word : String.ofList (c :: rest) = moduleName path := by
    rw [← text, String.ofList_toList]
  let chunk : Chunk := ⟨some (Piece.wordKind (moduleName path)), c, rest⟩
  have stands : chunk.StandsBefore true [] := by
    rw [Chunk.StandsBefore, Piece.first_of_nameStart isStart,
      Piece.ofName_word (fun d member => ModuleName.isNamePart_of_identifierChar (parts d member))
        rfl (by simp), word]
    rfl
  have spelled : Chunk.flatten [chunk] = (moduleName path).toList := by
    simpa [Chunk.text, chunk] using text.symm
  have tokens := Chunk.tokenize_of_reads spelled ⟨by simpa using stands, trivial⟩
  simpa [Chunk.tokens, chunk, Chunk.text, word, Piece.wordKind] using tokens

/-- A file may be called like a keyword, and then its name is one. -/
theorem moduleName_auto :
    ¬∀ path, (tokenize (moduleName path)).map (fun token => (token.kind, token.text)) =
      [(.identifier, moduleName path)] := by
  intro reads
  have here := reads "auto.cpp"
  revert here
  decide +kernel

end Requalify
