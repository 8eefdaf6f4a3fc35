import Requalify.Proofs.Token.Chunk
import Requalify.Proofs.Token.Scan

/-!
Lines that define a macro as a string. Such a line hides itself from the lexer and nothing else, unless the
string leaves a block comment open: string marks do not count in a preprocessor line, so the comment goes on
behind the line, and the directive with it.
-/

namespace Requalify

/-- The token that stands `distance` bytes further on. -/
def Token.shift (distance : Nat) (token : Token) : Token :=
  { token with start := token.start + distance }

theorem tokenizeFrom_add (offset distance : Nat) (fresh : Bool) (text : List Char) :
    tokenizeFrom (offset + distance) fresh [] text =
      (tokenizeFrom offset fresh [] text).map (Token.shift distance) := by
  induction fresh, text using piecesInduction generalizing offset with
  | nil fresh => simp [tokenizeFrom]
  | gap fresh c rest more piece ih =>
      rw [tokenizeFrom_gap piece, tokenizeFrom_gap piece, ← ih]
      congr 1
      omega
  | token fresh c rest kind more piece ih =>
      rw [tokenizeFrom_cons piece, tokenizeFrom_cons piece, List.map_cons, ← ih, Nat.add_right_comm]
      rfl

namespace Piece

/-- A block comment is open at the end of the text, which begins `inside` a comment or not. Nothing begins
behind `//`. -/
def leavesOpen : Bool → List Char → Bool
  | inside, [] => inside
  | true, '*' :: '/' :: rest => leavesOpen false rest
  | false, '/' :: '*' :: rest => leavesOpen true rest
  | false, '/' :: '/' :: _ => false
  | inside, _ :: rest => leavesOpen inside rest

theorem Scan.length_add {σ : Type} (scan : Scan σ) (state : σ) (count : Nat) (text : List Char) :
    scan.length state count text = count + scan.length state 0 text := by
  have further (start : Nat) : scan.length state (count + start) text =
      count + scan.length state start text := by
    fun_induction Scan.length scan state start text with
    | case1 state start => rw [Scan.length]
    | case2 state start c rest stops =>
        rw [Scan.length, stops]
    | case3 state start c rest next both step ih =>
        rw [Scan.length, step, ← ih]
        dsimp only
        congr 1
        omega
  exact further 0

theorem directiveLength_add (state : DirectiveState) (count : Nat) (text : List Char) :
    directiveLength state count text = count + directiveLength state 0 text := by
  rw [directiveLength_eq_scan, directiveLength_eq_scan, Scan.length_add]

/-- The rest of a line behind `//`, which ends with a string mark. -/
theorem directiveLength_lineComment {body : List Char} (oneLine : '\n' ∉ body) (escaped : Bool)
    (count : Nat) (after : List Char) :
    directiveLength (.lineComment escaped) count (body ++ '"' :: '\n' :: after) =
      count + body.length + 1 := by
  induction body generalizing escaped count with
  | nil => simp [directiveLength, stillEscaped]
  | cons c rest ih =>
      rw [List.mem_cons, not_or] at oneLine
      rw [List.cons_append, directiveLength]
      · rw [ih oneLine.2, List.length_cons]
        omega
      · exact fun feed => oneLine.1 feed.symm

/-- Where a preprocessor line stands that is inside a comment or not. -/
def commentState (escaped : Bool) : Bool → DirectiveState
  | true => .blockComment
  | false => .code escaped

/-- A line that ends with a string mark is left at its end, or in a comment that goes on behind it. -/
theorem directiveLength_string (inside : Bool) {body : List Char} (oneLine : '\n' ∉ body)
    (escaped : Bool) (count : Nat) (after : List Char) :
    directiveLength (commentState escaped inside) count (body ++ '"' :: '\n' :: after) =
      if leavesOpen inside body then directiveLength .blockComment (count + body.length + 2) after
      else count + body.length + 1 := by
  fun_induction leavesOpen inside body generalizing escaped count with
  | case1 inside =>
      cases inside with
      | true => simp [commentState, directiveLength]
      | false => simp [commentState, directiveLength, stillEscaped]
  | case2 rest ih =>
      have later := ih (by simp_all) false (count + 2)
      have size : count + ('*' :: '/' :: rest).length = count + 2 + rest.length := by simp; omega
      simp only [commentState, List.cons_append, directiveLength] at later ⊢
      rw [later, size]
  | case3 rest ih =>
      have later := ih (by simp_all) false (count + 2)
      have size : count + ('/' :: '*' :: rest).length = count + 2 + rest.length := by simp; omega
      simp only [commentState, List.cons_append, directiveLength] at later ⊢
      rw [later, size]
  | case4 rest =>
      simp only [commentState, List.cons_append, directiveLength]
      rw [directiveLength_lineComment (by simp_all)]
      simp
      omega
  | case5 inside c rest notEnd notBegin notLine ih =>
      rw [List.mem_cons, not_or] at oneLine
      have noPair (second : Char) (different : second ≠ '"')
          (alone : ∀ others, rest = second :: others → False) (others : List Char) :
          rest ++ '"' :: '\n' :: after ≠ second :: others := by
        cases rest with
        | nil => simp [Ne.symm different]
        | cons d rest =>
            intro same
            exact alone rest (by rw [(List.cons.inj same).1])
      have size : count + (c :: rest).length = count + 1 + rest.length := by simp; omega
      cases inside with
      | true =>
          have later := ih oneLine.2 false (count + 1)
          simp only [commentState] at later ⊢
          rw [List.cons_append, directiveLength, later, size]
          intro others isStar isSlash
          exact noPair '/' (by decide) (fun others => notEnd others rfl isStar) others isSlash
      | false =>
          have later := ih oneLine.2 (stillEscaped escaped c) (count + 1)
          simp only [commentState] at later ⊢
          rw [List.cons_append, directiveLength, later, size]
          · intro others isSlash isStar
            exact noPair '*' (by decide) (fun others => notBegin others rfl isSlash) others isStar
          · intro others isSlash isSlash'
            exact noPair '/' (by decide) (fun others => notLine others rfl isSlash) others isSlash'
          · exact fun feed => oneLine.1 feed.symm

theorem directiveLength_closed {body : List Char} (oneLine : '\n' ∉ body)
    (closed : leavesOpen false body = false) (after : List Char) :
    directiveLength (.code false) 0 (body ++ '"' :: '\n' :: after) = body.length + 1 := by
  have size := directiveLength_string false oneLine false 0 after
  rw [closed] at size
  simpa [commentState] using size

theorem directiveLength_open {body : List Char} (oneLine : '\n' ∉ body)
    (isOpen : leavesOpen false body = true) (after : List Char) :
    directiveLength (.code false) 0 (body ++ '"' :: '\n' :: after) =
      body.length + 2 + directiveLength .blockComment 0 after := by
  have size := directiveLength_string false oneLine false 0 after
  rw [isOpen] at size
  rw [← directiveLength_add]
  simpa [commentState] using size

/-- Without an end, a comment takes the whole text. -/
theorem directiveLength_unended {text : List Char} (noEnd : ¬['*', '/'] <:+: text) (count : Nat) :
    directiveLength .blockComment count text = count + text.length := by
  induction text generalizing count with
  | nil => simp [directiveLength]
  | cons c rest ih =>
      have noEnd' : ¬['*', '/'] <:+: rest := fun isEnd => noEnd (List.infix_cons isEnd)
      rw [directiveLength, ih noEnd', List.length_cons]
      · omega
      · rintro others rfl rfl
        exact noEnd (List.infix_append [] ['*', '/'] others)

/-- A comment goes on up to its first end, and then the directive does. -/
theorem directiveLength_ended {front : List Char} (noEnd : ¬['*', '/'] <:+: front) (count : Nat)
    (back : List Char) : directiveLength .blockComment count (front ++ '*' :: '/' :: back) =
      count + front.length + 2 + directiveLength (.code false) 0 back := by
  induction front generalizing count with
  | nil =>
      rw [List.nil_append, directiveLength, directiveLength_add]
      rfl
  | cons c rest ih =>
      have noEnd' : ¬['*', '/'] <:+: rest := fun isEnd => noEnd (List.infix_cons isEnd)
      rw [List.cons_append, directiveLength, ih noEnd', List.length_cons]
      · omega
      · intro others isStar isSlash
        subst isStar
        cases rest with
        | nil => simp at isSlash
        | cons d rest =>
            obtain ⟨rfl, -⟩ := List.cons.inj isSlash
            exact noEnd (List.infix_append [] ['*', '/'] rest)

theorem leavesOpen_append {front : List Char} (plain : '/' ∉ front) (text : List Char) :
    leavesOpen false (front ++ text) = leavesOpen false text := by
  induction front with
  | nil => rfl
  | cons c rest ih =>
      rw [List.mem_cons, not_or] at plain
      rw [List.cons_append, leavesOpen, ih plain.2]
      · simp
      · exact fun others _ isSlash => absurd isSlash.symm plain.1
      · exact fun others _ isSlash => absurd isSlash.symm plain.1

end Piece

/-- The line that defines the macro `name` as `string`, with its line feed. -/
def macroLine (name string : String) : String :=
  "#define " ++ name ++ " \"" ++ string ++ "\"\n"

/-- A directive is passed over, and what is behind it is read as the beginning of a text. -/
theorem tokenizeFrom_directive (offset : Nat) (front after : List Char) {rest : List Char}
    (parts : rest = front ++ after) (size : Piece.directiveLength (.code false) 0 rest = front.length) :
    tokenizeFrom offset true [] ('#' :: rest) =
      tokenizeFrom (offset + Text.byteLength ('#' :: front)) true [] after := by
  have piece : Piece.first true '#' rest = .gap (Piece.directiveLength (.code false) 0 rest) := rfl
  rw [tokenizeFrom_gap piece, size, parts, List.take_left, List.drop_left, Text.byteLength_cons]
  rw [Nat.add_assoc]
  rfl

section Line

variable {name string : String} (isWord : ∀ c ∈ name.toList, Piece.isNamePart c = true)
  (oneLine : '\n' ∉ string.toList)

include isWord oneLine

theorem exists_macroBody : ∃ body, (macroLine name string).toList = '#' :: (body ++ ['"', '\n']) ∧
    '\n' ∉ body ∧ Piece.leavesOpen false body = Piece.leavesOpen false string.toList := by
  have noFeed : '\n' ∉ name.toList := fun member => absurd (isWord _ member) (by decide)
  have noSlash : '/' ∉ name.toList := fun member => absurd (isWord _ member) (by decide)
  refine ⟨"define ".toList ++ (name.toList ++ ([' ', '"'] ++ string.toList)), ?_, ?_, ?_⟩
  · simp [macroLine]
  · simp [noFeed, oneLine]
  · rw [Piece.leavesOpen_append (by decide), Piece.leavesOpen_append noSlash,
      Piece.leavesOpen_append (by decide)]

/-- A line that leaves no comment open hides itself only. -/
theorem tokenize_of_closed (closed : Piece.leavesOpen false string.toList = false) (text : String) :
    tokenize (macroLine name string ++ text) =
      (tokenize text).map (Token.shift (Text.byteLength (macroLine name string).toList)) := by
  obtain ⟨body, line, noFeed, same⟩ := exists_macroBody isWord oneLine
  -- The directive ends in front of the line feed, which is white space of what is behind it.
  have behind : tokenize (macroLine name string ++ text) =
      tokenizeFrom (Text.byteLength ('#' :: (body ++ ['"']))) true [] ('\n' :: text.toList) := by
    have parts : (macroLine name string ++ text).toList = '#' :: (body ++ '"' :: '\n' :: text.toList) := by
      simp [line]
    rw [tokenize, parts, tokenizeFrom_directive 0 (body ++ ['"']) ('\n' :: text.toList) (by simp), Nat.zero_add]
    rw [Piece.directiveLength_closed noFeed (same.trans closed)]
    simp
  have feed : Piece.first true '\n' text.toList = .gap 0 := by rfl
  have size : Text.byteLength (macroLine name string).toList =
      Text.byteLength ('#' :: (body ++ ['"'])) + '\n'.utf8Size := by
    rw [line, show '#' :: (body ++ ['"', '\n']) = '#' :: (body ++ ['"']) ++ ['\n'] by simp,
      Text.byteLength_append]
    rfl
  rw [behind, tokenizeFrom_gap feed, tokenize, ← tokenizeFrom_add, size, Nat.zero_add]
  rfl

/-- A comment that never ends hides all there is. -/
theorem tokenize_of_open (isOpen : Piece.leavesOpen false string.toList = true) {text : String}
    (noEnd : ¬['*', '/'] <:+: text.toList) : tokenize (macroLine name string ++ text) = [] := by
  obtain ⟨body, line, noFeed, same⟩ := exists_macroBody isWord oneLine
  have parts : (macroLine name string ++ text).toList = '#' :: (body ++ '"' :: '\n' :: text.toList) := by
    simp [line]
  rw [tokenize, parts, tokenizeFrom_directive 0 (body ++ '"' :: '\n' :: text.toList) [] (by simp)]
  · simp [tokenizeFrom]
  · rw [Piece.directiveLength_open noFeed (same.trans isOpen), Piece.directiveLength_unended noEnd]
    simp
    omega

/-- Behind the end of the comment, the text is read as the rest of a directive. -/
theorem tokenize_of_ended (isOpen : Piece.leavesOpen false string.toList = true) {front : String}
    (noEnd : ¬['*', '/'] <:+: front.toList) (back : String) :
    tokenize (macroLine name string ++ (front ++ "*/" ++ back)) = (tokenize ("#" ++ back)).map
      (Token.shift (Text.byteLength (macroLine name string).toList + Text.byteLength front.toList + 1)) := by
  obtain ⟨body, line, noFeed, same⟩ := exists_macroBody isWord oneLine
  generalize sizeEq : Piece.directiveLength (.code false) 0 back.toList = size
  have bound : size ≤ back.toList.length := by
    have inText := Piece.directiveLength_le (.code false) 0 back.toList
    omega
  have rest : back.toList.take size ++ back.toList.drop size = back.toList := List.take_append_drop ..
  have alone : tokenize ("#" ++ back) =
      tokenizeFrom (0 + Text.byteLength ('#' :: back.toList.take size)) true [] (back.toList.drop size) := by
    have parts : ("#" ++ back).toList = '#' :: back.toList := by simp
    rw [tokenize, parts, tokenizeFrom_directive 0 (back.toList.take size) (back.toList.drop size) rest.symm]
    rw [sizeEq, List.length_take, Nat.min_eq_left bound]
  have behind : tokenize (macroLine name string ++ (front ++ "*/" ++ back)) =
      tokenizeFrom (0 + Text.byteLength
        ('#' :: (body ++ '"' :: '\n' :: front.toList ++ '*' :: '/' :: back.toList.take size)))
        true [] (back.toList.drop size) := by
    have parts : (macroLine name string ++ (front ++ "*/" ++ back)).toList =
        '#' :: (body ++ '"' :: '\n' :: (front.toList ++ '*' :: '/' :: back.toList)) := by
      simp [line]
    rw [tokenize, parts, tokenizeFrom_directive 0
      (body ++ '"' :: '\n' :: front.toList ++ '*' :: '/' :: back.toList.take size) (back.toList.drop size)
      (by simp [rest])]
    rw [Piece.directiveLength_open noFeed (same.trans isOpen), Piece.directiveLength_ended noEnd, sizeEq]
    simp [Nat.min_eq_left bound]
    omega
  rw [alone, behind, ← tokenizeFrom_add]
  congr 1
  have hash : '#'.utf8Size = 1 := by rfl
  have star : '*'.utf8Size = 1 := by rfl
  have slash : '/'.utf8Size = 1 := by rfl
  simp only [line, Text.byteLength_append, Text.byteLength_cons, Text.byteLength_nil, hash, star, slash]
  omega

end Line

/-- A line that defines a macro as a string hides nothing behind it, exactly when its string leaves no
comment open. When it does, what follows is hidden up to the first end of a comment, and goes on there as the
rest of a directive. -/
theorem tokenize_behind_macroLine {name string : String}
    (isWord : ∀ c ∈ name.toList, Piece.isNamePart c = true) (oneLine : '\n' ∉ string.toList) :
    (Piece.leavesOpen false string.toList = false ↔
      ∀ text, tokenize (macroLine name string ++ text) =
        (tokenize text).map (Token.shift (Text.byteLength (macroLine name string).toList))) ∧
    (Piece.leavesOpen false string.toList = true →
      (∀ text : String, ¬['*', '/'] <:+: text.toList → tokenize (macroLine name string ++ text) = []) ∧
      ∀ front back : String, ¬['*', '/'] <:+: front.toList →
        tokenize (macroLine name string ++ (front ++ "*/" ++ back)) = (tokenize ("#" ++ back)).map
          (Token.shift
            (Text.byteLength (macroLine name string).toList + Text.byteLength front.toList + 1))) := by
  refine ⟨⟨?closed, ?hidden⟩, fun isOpen => ⟨?unended, ?ended⟩⟩
  case closed =>
    exact fun closed text => tokenize_of_closed isWord oneLine closed text
  case hidden =>
    intro whole
    rw [← Bool.not_eq_true]
    intro isOpen
    have nothing : tokenize (macroLine name string ++ ";") = [] :=
      tokenize_of_open isWord oneLine isOpen (by decide)
    have mark : tokenize ";" = [⟨.punctuator, ";", 0⟩] := by decide +kernel
    have both := whole ";"
    rw [nothing, mark] at both
    exact List.cons_ne_nil _ _ both.symm
  case unended =>
    exact fun text noEnd => tokenize_of_open isWord oneLine isOpen noEnd
  case ended =>
    exact fun front back noEnd => tokenize_of_ended isWord oneLine isOpen noEnd back

/-- A pattern of paths hides the line behind it and the rest of a comment there. -/
theorem tokenize_behind_macroLine_glob :
    (∀ c ∈ "GLOB".toList, Piece.isNamePart c = true) ∧ '\n' ∉ "src/*".toList ∧
      tokenize (macroLine "GLOB" "src/*" ++ ("int x;\n/* all " ++ "*/" ++ "\nint y;")) =
        [⟨.keyword, "int", 38⟩, ⟨.identifier, "y", 42⟩, ⟨.punctuator, ";", 43⟩] := by
  have isWord : ∀ c ∈ "GLOB".toList, Piece.isNamePart c = true :=
    List.all_eq_true.mp (by decide +kernel)
  have oneLine : '\n' ∉ "src/*".toList := by decide +kernel
  refine ⟨isWord, oneLine, ?_⟩
  rw [((tokenize_behind_macroLine isWord oneLine).2 (by decide +kernel)).2 _ _ (by decide +kernel)]
  decide +kernel

/-- A string that looks like the beginning of a comment hides the code behind its line. -/
theorem macroLine_hides_code :
    ¬∀ name string text : String, tokenize name = [⟨.identifier, name, 0⟩] →
      '"' ∉ string.toList → '\\' ∉ string.toList → '\n' ∉ string.toList →
      tokenize (macroLine name string ++ text) =
        (tokenize text).map (Token.shift (Text.byteLength (macroLine name string).toList)) := by
  intro claim
  have differs : tokenize (macroLine "GLOB" "src/*" ++ "int x;\n") ≠
      (tokenize "int x;\n").map (Token.shift (Text.byteLength (macroLine "GLOB" "src/*").toList)) := by
    decide +kernel
  exact differs (claim "GLOB" "src/*" "int x;\n" (by decide +kernel) (by decide +kernel)
    (by decide +kernel) (by decide +kernel))

end Requalify
