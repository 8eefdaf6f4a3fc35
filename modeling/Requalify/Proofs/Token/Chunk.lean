import Requalify.Proofs.Token.Place

/-!
A text as a list of chunks, the parts that the lexer takes one after the other. A list of chunks is read
back from its text if each chunk is what stands in front of the rest; the tokens of the text are then
the chunks that are no gaps. `freshBehind` tells as in the lexer whether `#` would start a directive.
-/

namespace Requalify

namespace Piece

/-- A gap, or a token of the given kind. -/
def ofKind (kind : Option TokenKind) (more : Nat) : Piece :=
  match kind with
  | none => .gap more
  | some kind => .token kind more

/-! No piece is longer than its text. -/

theorem nameLength_le (text : List Char) : nameLength text ≤ text.length :=
  (List.takeWhile_prefix _).length_le

theorem commentLength_le (count : Nat) (text : List Char) :
    commentLength count text ≤ count + text.length := by
  fun_induction commentLength count text
  all_goals
    simp only [List.length_nil, List.length_cons]
    omega

theorem directiveLength_le (state : DirectiveState) (count : Nat) (text : List Char) :
    directiveLength state count text ≤ count + text.length := by
  fun_induction directiveLength state count text
  all_goals
    simp only [List.length_nil, List.length_cons]
    omega

theorem quotedLength_le (mark : Char) (count : Nat) (text : List Char) :
    quotedLength mark count text ≤ count + text.length := by
  fun_induction quotedLength mark count text
  all_goals
    simp only [List.length_nil, List.length_cons]
    omega

theorem lengthThrough_le (ending : List Char) (count : Nat) (text : List Char) :
    lengthThrough ending count text ≤ count + text.length := by
  fun_induction lengthThrough ending count text with
  | case1 count => simp
  | case2 count c rest found =>
      have fits := (List.isPrefixOf_iff_prefix.mp found).length_le
      omega
  | case3 count c rest _ ih =>
      simp only [List.length_cons]
      omega

theorem rawLength_le (text : List Char) : rawLength text ≤ text.length := by
  unfold rawLength
  dsimp only
  split
  next => simpa using quotedLength_le '"' 0 text
  next body parts =>
    have size := congrArg List.length parts
    simp only [List.length_drop, List.length_cons] at size
    have fits := lengthThrough_le (')' :: text.takeWhile (· != '(') ++ ['"'])
      ((text.takeWhile (· != '(')).length + 1) body
    omega

theorem withSuffix_le {length : Nat} {text : List Char} (fits : length ≤ text.length) :
    withSuffix length text ≤ text.length := by
  have suffix := nameLength_le (text.drop length)
  rw [List.length_drop] at suffix
  rw [withSuffix]
  omega

theorem numberLength_le (previous : Char) (count : Nat) (text : List Char) :
    numberLength previous count text ≤ count + text.length := by
  fun_induction numberLength previous count text
  all_goals
    simp only [List.length_nil, List.length_cons]
    omega

theorem ofPunctuator_within (c : Char) (rest : List Char) :
    ∃ kind more, more ≤ rest.length ∧ ofPunctuator (c :: rest) = .token kind more := by
  unfold ofPunctuator
  split
  next punctuator found =>
    have begins : punctuator.isPrefixOf (c :: rest) = true := by simpa using List.find?_some found
    have fits := (List.isPrefixOf_iff_prefix.mp begins).length_le
    rw [List.length_cons] at fits
    exact ⟨.punctuator, _, by omega, rfl⟩
  next => exact ⟨.punctuator, 0, Nat.zero_le _, rfl⟩

theorem ofName_within (c : Char) (rest : List Char) :
    ∃ kind more, more ≤ rest.length ∧ ofName c rest = .token kind more := by
  have name := nameLength_le rest
  have literal {mark : Char} {after : List Char} (parts : rest.drop (nameLength rest) = mark :: after)
      {length : Nat} (fits : length ≤ after.length) :
      nameLength rest + 1 + withSuffix length after ≤ rest.length := by
    have size := congrArg List.length parts
    rw [List.length_drop, List.length_cons] at size
    have suffix := withSuffix_le fits
    omega
  unfold ofName
  dsimp only
  split
  next after parts =>
    split
    next => exact ⟨_, _, literal parts (rawLength_le after), rfl⟩
    next =>
      split
      next => exact ⟨_, _, literal parts (by simpa using quotedLength_le '"' 0 after), rfl⟩
      next => exact ⟨_, _, name, rfl⟩
  next after parts =>
    split
    next => exact ⟨_, _, literal parts (by simpa using quotedLength_le '\'' 0 after), rfl⟩
    next => exact ⟨_, _, name, rfl⟩
  next => exact ⟨_, _, name, rfl⟩

theorem ofToken_within (c : Char) (rest : List Char) :
    ∃ kind more, more ≤ rest.length ∧ ofToken c rest = .token kind more := by
  unfold ofToken
  split
  next => exact ofName_within c rest
  next =>
    split
    next => exact ⟨_, _, by simpa using numberLength_le c 0 rest, rfl⟩
    next =>
      split
      next => exact ⟨_, _, withSuffix_le (by simpa using quotedLength_le c 0 rest), rfl⟩
      next =>
        split
        next => exact ⟨_, _, by simp, rfl⟩
        next => exact ofPunctuator_within c rest

theorem first_within (fresh : Bool) (c : Char) (rest : List Char) :
    ∃ kind more, more ≤ rest.length ∧ first fresh c rest = ofKind kind more := by
  unfold first
  split
  next => exact ⟨none, 0, Nat.zero_le _, rfl⟩
  next =>
    split
    next after _ =>
      have fits : (after.takeWhile (· != '\n')).length ≤ after.length :=
        (List.takeWhile_prefix _).length_le
      refine ⟨none, _, ?_, rfl⟩
      rw [List.length_cons]
      omega
    next after _ =>
      have fits := commentLength_le 1 after
      refine ⟨none, _, ?_, rfl⟩
      rw [List.length_cons]
      omega
    next =>
      split
      next => exact ⟨none, _, by simpa using directiveLength_le (.code false) 0 rest, rfl⟩
      next =>
        obtain ⟨kind, more, fits, piece⟩ := ofToken_within c rest
        exact ⟨some kind, more, fits, piece⟩

end Piece

/-- A part of a text that the lexer takes as one piece. A gap has no kind. -/
structure Chunk where
  kind : Option TokenKind
  first : Char
  rest : List Char
  deriving DecidableEq

namespace Chunk

def text (chunk : Chunk) : List Char :=
  chunk.first :: chunk.rest

def flatten (chunks : List Chunk) : List Char :=
  chunks.flatMap text

/-- The chunk is what the lexer takes in front of `after`. -/
def StandsBefore (chunk : Chunk) (fresh : Bool) (after : List Char) : Prop :=
  Piece.first fresh chunk.first (chunk.rest ++ after) = .ofKind chunk.kind chunk.rest.length

def freshBehind (fresh : Bool) (chunk : Chunk) : Bool :=
  chunk.kind.isNone && (fresh || chunk.first == '\n')

/-- The lexer takes the chunks one after the other, up to `after`. -/
def Reads (fresh : Bool) (after : List Char) : List Chunk → Prop
  | [] => True
  | chunk :: chunks =>
      chunk.StandsBefore fresh (flatten chunks ++ after) ∧
        Reads (chunk.freshBehind fresh) after chunks

def tokens (offset : Nat) : List Chunk → List Token
  | [] => []
  | chunk :: chunks =>
      (chunk.kind.map fun kind => ⟨kind, String.ofList chunk.text, offset⟩).toList ++
        tokens (offset + Text.byteLength chunk.text) chunks

@[simp]
theorem flatten_nil : flatten [] = [] := rfl

@[simp]
theorem flatten_cons (chunk : Chunk) (chunks : List Chunk) :
    flatten (chunk :: chunks) = chunk.text ++ flatten chunks := rfl

@[simp]
theorem flatten_append (left right : List Chunk) :
    flatten (left ++ right) = flatten left ++ flatten right :=
  List.flatMap_append

theorem reads_append {fresh : Bool} {after : List Char} {left right : List Chunk} :
    Reads fresh after (left ++ right) ↔
      Reads fresh (flatten right ++ after) left ∧ Reads (left.foldl freshBehind fresh) after right := by
  induction left generalizing fresh with
  | nil => simp [Reads]
  | cons chunk left ih => simp [Reads, ih, and_assoc]

theorem tokens_append (offset : Nat) (left right : List Chunk) :
    tokens offset (left ++ right) =
      tokens offset left ++ tokens (offset + Text.byteLength (flatten left)) right := by
  induction left generalizing offset with
  | nil => simp [tokens]
  | cons chunk left ih => simp [tokens, ih, Nat.add_assoc]

/-- Every token is one of the chunks. -/
theorem exists_chunk {offset : Nat} {chunks : List Chunk} {token : Token}
    (member : token ∈ tokens offset chunks) :
    ∃ front chunk back, chunks = front ++ chunk :: back ∧ chunk.kind = some token.kind ∧
      chunk.text = token.text.toList ∧ token.start = offset + Text.byteLength (flatten front) := by
  induction chunks generalizing offset with
  | nil => simp [tokens] at member
  | cons chunk chunks ih =>
      rcases List.mem_append.mp member with here | later
      · obtain ⟨kind, isKind, rfl⟩ : ∃ kind, chunk.kind = some kind ∧
            ⟨kind, String.ofList chunk.text, offset⟩ = token := by
          simpa using here
        exact ⟨[], chunk, chunks, rfl, isKind, String.toList_ofList.symm, rfl⟩
      · obtain ⟨front, other, back, rfl, isKind, lexeme, start⟩ := ih later
        refine ⟨chunk :: front, other, back, rfl, isKind, lexeme, ?_⟩
        rw [start, flatten_cons, Text.byteLength_append, Nat.add_assoc]

/-- Every text is a list of chunks. -/
theorem exists_reads (fresh : Bool) (text : List Char) :
    ∃ chunks, flatten chunks = text ∧ Reads fresh [] chunks := by
  generalize sizeEq : text.length = size
  induction size using Nat.strongRecOn generalizing fresh text with
  | ind size ih =>
      cases text with
      | nil => exact ⟨[], rfl, trivial⟩
      | cons c rest =>
          obtain ⟨kind, more, fits, piece⟩ := Piece.first_within fresh c rest
          let chunk : Chunk := ⟨kind, c, rest.take more⟩
          have shorter : (rest.drop more).length < size := by
            rw [← sizeEq, List.length_drop, List.length_cons]
            omega
          obtain ⟨chunks, parts, reads⟩ :=
            ih _ shorter (chunk.freshBehind fresh) (rest.drop more) rfl
          refine ⟨chunk :: chunks, ?_, ?_, reads⟩
          · rw [flatten_cons, parts, text, List.cons_append, List.take_append_drop]
          · rw [StandsBefore, parts, List.append_nil, List.take_append_drop, piece,
              List.length_take, Nat.min_eq_left fits]

theorem tokenizeFrom_of_reads {fresh : Bool} {after : List Char} {chunks : List Chunk}
    (reads : Reads fresh after chunks) (offset : Nat) :
    tokenizeFrom offset fresh [] (flatten chunks ++ after) =
      tokens offset chunks ++
        tokenizeFrom (offset + Text.byteLength (flatten chunks)) (chunks.foldl freshBehind fresh) []
          after := by
  induction chunks generalizing fresh offset with
  | nil => simp [tokens]
  | cons chunk chunks ih =>
      obtain ⟨stands, reads⟩ := reads
      obtain ⟨kind, c, rest⟩ := chunk
      have whole : flatten (⟨kind, c, rest⟩ :: chunks) ++ after =
          c :: (rest ++ (flatten chunks ++ after)) := by
        simp [text]
      cases kind with
      | none =>
          have piece : Piece.first fresh c (rest ++ (flatten chunks ++ after)) = .gap rest.length :=
            stands
          rw [whole, tokenizeFrom_gap piece, List.drop_left, List.take_left]
          have later := ih reads (offset + c.utf8Size + Text.byteLength rest)
          simp only [freshBehind, Option.isNone_none, Bool.true_and] at later
          rw [later]
          simp [tokens, text, freshBehind, Nat.add_assoc]
      | some kind =>
          have piece : Piece.first fresh c (rest ++ (flatten chunks ++ after)) =
              .token kind rest.length := stands
          rw [whole, tokenizeFrom_cons piece, List.drop_left, List.take_left]
          have later := ih reads (offset + Text.byteLength (c :: rest))
          simp only [freshBehind, Option.isNone_some, Bool.false_and] at later
          rw [later]
          simp [tokens, text, freshBehind, Nat.add_assoc]

/-- The tokens of a text are its chunks that are no gaps. -/
theorem tokenize_of_reads {text : String} {chunks : List Chunk} (parts : flatten chunks = text.toList)
    (reads : Reads true [] chunks) : tokenize text = tokens 0 chunks := by
  have tokens := tokenizeFrom_of_reads reads 0
  rw [List.append_nil] at tokens
  rw [tokenize, ← parts, tokens]
  simp [tokenizeFrom]

end Chunk

end Requalify
