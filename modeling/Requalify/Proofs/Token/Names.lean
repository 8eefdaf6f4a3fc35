import Requalify.Proofs.Token.Edited

/-!
Names as tokens. A name with `::` behind it is read back from its text wherever it stands, so a qualifier
can be written in front of anything.
-/

namespace Requalify

/-- What an identifier is spelled with. -/
structure IsName (name : String) : Prop where
  parts : ∃ c rest, name.toList = c :: rest ∧ Piece.isNameStart c = true ∧
    ∀ d ∈ rest, Piece.isNamePart d = true
  free : keywords.contains name = false

theorem IsName.isNamePart {name : String} (isName : IsName name) {c : Char} (member : c ∈ name.toList) :
    Piece.isNamePart c = true := by
  obtain ⟨first, rest, parts, start, others⟩ := isName.parts
  rw [parts] at member
  rcases List.mem_cons.mp member with rfl | inRest
  · exact Piece.isNamePart_of_nameStart start
  · exact others c inRest

namespace Chunk

open Piece

variable {fresh : Bool} {c : Char} {rest after : List Char}

theorem isName_of_identifier (stands : StandsBefore ⟨some .identifier, c, rest⟩ fresh after) :
    IsName (String.ofList (c :: rest)) := by
  have start : isNameStart c = true := isNameStart_of_word (.inl rfl) stands
  rw [StandsBefore, first_of_nameStart start] at stands
  rcases ofName_cases stands with ⟨parts, -, -, kind⟩ | ⟨_, _, _, _, _, _, _, kind, _⟩
  · refine ⟨⟨c, rest, String.toList_ofList, start, parts⟩, ?_⟩
    cases free : keywords.contains (String.ofList (c :: rest)) with
    | false => rfl
    | true =>
        rw [wordKind, free] at kind
        simp at kind
  · simp at kind

theorem isName_of_text {chunk : Chunk} {token : Token} (kind : chunk.kind = some .identifier)
    (lexeme : chunk.text = token.text.toList) (stands : chunk.StandsBefore fresh after) :
    IsName token.text := by
  obtain ⟨_, c, rest⟩ := chunk
  obtain rfl := kind
  rw [← String.ofList_toList (s := token.text), ← lexeme]
  exact isName_of_identifier stands

/-- The separator `::`. -/
def separator : Chunk :=
  ⟨some .scope, ':', [':']⟩

theorem ofName_ne_scope (more : Nat) : Piece.ofName c rest ≠ .token .scope more := by
  unfold Piece.ofName
  grind

theorem eq_separator {chunk : Chunk} (kind : chunk.kind = some .scope)
    (stands : chunk.StandsBefore fresh after) : chunk = separator := by
  obtain ⟨_, c, rest⟩ := chunk
  obtain rfl := kind
  have piece : Piece.first fresh c (rest ++ after) = .token .scope rest.length := stands
  rw [first_eq_ofToken (not_beginsGap piece)] at piece
  unfold ofToken at piece
  split at piece
  next => exact absurd piece (ofName_ne_scope _)
  next number =>
    split at piece
    next => simp at piece
    next literal =>
      split at piece
      next => simp at piece
      next =>
        split at piece
        next behind parts _ =>
          have single := (Piece.token.inj piece).2
          obtain ⟨d, rfl⟩ := List.length_eq_one_iff.mp single.symm
          obtain rfl : d = ':' := (List.cons.inj parts).1
          rfl
        next =>
          unfold ofPunctuator at piece
          split at piece
          next => simp at piece
          next => simp at piece

/-- The separator is the same in front of everything. -/
theorem separator_standsBefore (fresh : Bool) (after : List Char) :
    separator.StandsBefore fresh after :=
  rfl

/-- The chunk of a name. -/
def ofName (name : String) : Chunk :=
  ⟨some .identifier, name.toList.headD ' ', name.toList.tail⟩

theorem text_ofName {name : String} (isName : IsName name) : (ofName name).text = name.toList := by
  obtain ⟨c, rest, parts, -⟩ := isName.parts
  simp [ofName, text, parts]

/-- A name is one in front of what neither goes on with it nor makes a literal of it. -/
theorem ofName_standsBefore_of_apart {name : String} (isName : IsName name) (fresh : Bool)
    (apart : after.head?.any isNamePart = false)
    (plain : ∀ mark, after.head? = some mark → mark ≠ '"' ∧ mark ≠ '\'') :
    (ofName name).StandsBefore fresh after := by
  obtain ⟨⟨c, rest, parts, start, others⟩, free⟩ := isName
  have word : String.ofList (c :: rest) = name := by rw [← parts, String.ofList_toList]
  have noLiteral (mark : Char) (first : after.head? = some mark) :
      literalLength? (String.ofList (c :: rest)) mark = none := by
    simp [literalLength?, plain mark first]
  have kind : wordKind name = .identifier := by
    rw [wordKind, free]
    rfl
  rw [StandsBefore, ofName, parts, List.headD_cons, List.tail_cons, first_of_nameStart start,
    ofName_word others apart noLiteral, word, kind]
  rfl

theorem ofName_standsBefore {name : String} (isName : IsName name) (fresh : Bool)
    (after : List Char) : (ofName name).StandsBefore fresh (':' :: after) := by
  refine ofName_standsBefore_of_apart isName fresh rfl fun mark first => ?_
  obtain rfl : ':' = mark := Option.some.inj first
  decide

/-- The chunks of a qualifier. -/
def ofNames (names : List String) : List Chunk :=
  names.flatMap fun name => [ofName name, separator]

theorem reads_ofNames {names : List String} (areNames : ∀ name ∈ names, IsName name) (fresh : Bool)
    (after : List Char) : Reads fresh after (ofNames names) := by
  induction names generalizing fresh with
  | nil => trivial
  | cons name names ih =>
      obtain ⟨isName, areNames⟩ := List.forall_mem_cons.mp areNames
      exact ⟨ofName_standsBefore isName fresh _, separator_standsBefore _ _, ih areNames _⟩

theorem flatten_ofNames {names : List String} (areNames : ∀ name ∈ names, IsName name) :
    flatten (ofNames names) = names.flatMap fun name => name.toList ++ [':', ':'] := by
  induction names with
  | nil => rfl
  | cons name names ih =>
      obtain ⟨isName, areNames⟩ := List.forall_mem_cons.mp areNames
      have rest : flatten (ofNames names) = _ := ih areNames
      rw [ofNames, List.flatMap_cons, flatten_append, ← ofNames, rest, List.flatMap_cons, flatten_cons,
        text_ofName isName]
      rfl

end Chunk

end Requalify
