import Requalify.Proofs.Diff.Lines

/-!
Reading a diff back. Each line is told by its first character: `@` begins a hunk, `-` and `+` add a line to one
of its sides, and the marker takes the terminator from the line before it. What is read from the diff of a text
are its hunks.
-/

namespace Requalify.LineDiff

/-! Numbers and headers. -/

def dropPrefix? (expected text : List Char) : Option (List Char) :=
  if expected.isPrefixOf text then some (text.drop expected.length) else none

def readNumber (text : List Char) : Option (Nat × List Char) :=
  let digits := text.takeWhile Char.isDigit
  if digits.isEmpty then none
  else some (Nat.ofDigitChars 10 digits 0, text.dropWhile Char.isDigit)

/-- A hunk of which no lines have been read. -/
def readHeader (line : List Char) : Option Hunk := do
  let rest ← dropPrefix? "@@ -".toList line
  let (oldStart, rest) ← readNumber rest
  let rest ← dropPrefix? ",".toList rest
  let (oldCount, rest) ← readNumber rest
  let rest ← dropPrefix? " +".toList rest
  let (newStart, rest) ← readNumber rest
  let rest ← dropPrefix? ",".toList rest
  let (newCount, rest) ← readNumber rest
  let rest ← dropPrefix? " @@\n".toList rest
  if rest.isEmpty then return ⟨oldStart, oldCount, newStart, newCount, [], []⟩ else none

theorem dropPrefix?_append (expected rest : List Char) :
    dropPrefix? expected (expected ++ rest) = some rest := by
  have begins : expected.isPrefixOf (expected ++ rest) = true :=
    List.isPrefixOf_iff_prefix.mpr (List.prefix_append expected rest)
  rw [dropPrefix?, if_pos begins, List.drop_left]

theorem isDigit_of_mem_repr {number : Nat} {c : Char} (member : c ∈ (toString number).toList) :
    c.isDigit = true := by
  rw [Nat.toString_eq_repr, Nat.toList_repr] at member
  exact Nat.isDigit_of_mem_toDigits (by decide) (by decide) member

theorem readNumber_repr (number : Nat) {rest : List Char} (ends : ∀ c ∈ rest.head?, ¬c.isDigit = true) :
    readNumber ((toString number).toList ++ rest) = some (number, rest) := by
  have own : ∀ c ∈ (toString number).toList, c.isDigit = true := fun c => isDigit_of_mem_repr
  have none_ : rest.takeWhile Char.isDigit = [] := by
    cases rest with
    | nil => rfl
    | cons c rest => exact List.takeWhile_cons_of_neg (ends c rfl)
  have all : rest.dropWhile Char.isDigit = rest := by
    cases rest with
    | nil => rfl
    | cons c rest => exact List.dropWhile_cons_of_neg (ends c rfl)
  have filled : (toString number).toList ≠ [] := by
    rw [Nat.toString_eq_repr, Nat.toList_repr]
    exact Nat.toDigits_ne_nil
  have value : Nat.ofDigitChars 10 (toString number).toList 0 = number := by
    rw [Nat.toString_eq_repr, Nat.toList_repr]
    exact Nat.ofDigitChars_ten_toDigits
  rw [readNumber, List.takeWhile_append_of_pos own, List.dropWhile_append_of_pos own, none_, all,
    List.append_nil, if_neg (by rwa [List.isEmpty_iff]), value]

def Hunk.header (hunk : Hunk) : List Char :=
  s!"@@ -{hunk.oldStart},{hunk.oldCount} +{hunk.newStart},{hunk.newCount} @@\n".toList

theorem Hunk.header_eq (hunk : Hunk) :
    hunk.header = "@@ -".toList ++ ((toString hunk.oldStart).toList ++ (",".toList ++
      ((toString hunk.oldCount).toList ++ (" +".toList ++ ((toString hunk.newStart).toList ++
        (",".toList ++ ((toString hunk.newCount).toList ++ " @@\n".toList))))))) := by
  simp only [header, String.toList_append, List.append_assoc]
  rfl

theorem readHeader_header (hunk : Hunk) :
    readHeader hunk.header = some { hunk with old := [], new := [] } := by
  rw [hunk.header_eq, readHeader, dropPrefix?_append]
  simp only [Option.bind_eq_bind, Option.bind_some]
  rw [readNumber_repr _ (by simp)]
  simp only [Option.bind_some, dropPrefix?_append]
  rw [readNumber_repr _ (by simp)]
  simp only [Option.bind_some, dropPrefix?_append]
  rw [readNumber_repr _ (by simp)]
  simp only [Option.bind_some, dropPrefix?_append]
  rw [readNumber_repr _ (by simp)]
  have last := dropPrefix?_append " @@\n".toList []
  rw [List.append_nil] at last
  simp only [Option.bind_some, last]
  rfl

theorem lineFeed_not_mem_repr (number : Nat) : '\n' ∉ (toString number).toList := by
  intro member
  exact absurd (isDigit_of_mem_repr member) (by decide)

/-! The lines of a diff. -/

def IsLine (line : List Char) : Prop :=
  ∃ body, line = body ++ ['\n'] ∧ '\n' ∉ body

theorem IsLine.closed {line : List Char} (isLine : IsLine line) : endsOpen line = false := by
  obtain ⟨body, rfl, -⟩ := isLine
  simp

theorem IsLine.append {front line : List Char} (free : '\n' ∉ front) (isLine : IsLine line) :
    IsLine (front ++ line) := by
  obtain ⟨body, rfl, inside⟩ := isLine
  refine ⟨front ++ body, (List.append_assoc front body ['\n']).symm, ?_⟩
  rw [List.mem_append, not_or]
  exact ⟨free, inside⟩

theorem IsLine.cons {c : Char} {line : List Char} (other : c ≠ '\n') (isLine : IsLine line) :
    IsLine (c :: line) :=
  @IsLine.append [c] line (by simpa using Ne.symm other) isLine

theorem IsLine.lines {line : List Char} (isLine : IsLine line) : lines line = [line] := by
  obtain ⟨body, rfl, inside⟩ := isLine
  induction body with
  | nil => rfl
  | cons c body ih =>
      rw [List.mem_cons, not_or] at inside
      exact lines_cons (Ne.symm inside.1) (ih inside.2)

theorem lines_flatten {pieces : List (List Char)} (all : ∀ piece ∈ pieces, IsLine piece) :
    lines pieces.flatten = pieces := by
  induction pieces with
  | nil => rfl
  | cons piece pieces ih =>
      obtain ⟨isLine, all⟩ := List.forall_mem_cons.mp all
      rw [List.flatten_cons, lines_append isLine.closed, isLine.lines, ih all, List.singleton_append]

theorem isLine_of_mem_lines {text : List Char} (closed : endsOpen text = false) :
    ∀ line ∈ lines text, IsLine line := by
  induction text using linesInduction with
  | nil => simp
  | lineFeed rest ih =>
      rw [endsOpen_lineFeed] at closed
      rw [lines_lineFeed]
      exact List.forall_mem_cons.mpr ⟨⟨[], rfl, by simp⟩, ih closed⟩
  | single c other => simp [endsOpen, other] at closed
  | cons c rest line more other nonempty split ih =>
      rw [endsOpen_cons c nonempty] at closed
      have all := ih closed
      rw [split] at all
      obtain ⟨isLine, others⟩ := List.forall_mem_cons.mp all
      rw [lines_cons other split]
      exact List.forall_mem_cons.mpr ⟨isLine.cons other, others⟩

/-- What stands behind a line that has no terminator. -/
def marker : List Char :=
  "\\ No newline at end of file\n".toList

def terminated (text : List Char) : List Char :=
  if endsOpen text then text ++ ['\n'] else text

theorem terminated_closed (text : List Char) : endsOpen (terminated text) = false := by
  rw [terminated]
  split
  · simp
  next closed => exact Bool.eq_false_iff.mpr closed

/-- The lines that a diff shows for the lines of a text. -/
def markedPieces (mark : Char) (text : List Char) : List (List Char) :=
  (lines (terminated text)).map (mark :: ·) ++ if endsOpen text then [marker] else []

theorem flatten_marked_open (mark : Char) {text : List Char} (isOpen : endsOpen text = true) :
    (lines (text ++ ['\n'])).flatMap (mark :: ·) = (lines text).flatMap (mark :: ·) ++ ['\n'] := by
  induction text using linesInduction with
  | nil => simp at isOpen
  | lineFeed rest ih =>
      rw [endsOpen_lineFeed] at isOpen
      rw [List.cons_append, lines_lineFeed, lines_lineFeed, List.flatMap_cons, List.flatMap_cons,
        ih isOpen, List.append_assoc]
  | single c other =>
      have closing := lines_cons other (lines_lineFeed [])
      rw [List.singleton_append, closing, lines_single other]
      rfl
  | cons c rest line more other nonempty split ih =>
      rw [endsOpen_cons c nonempty] at isOpen
      have filled : rest ++ ['\n'] ≠ [] := by simp
      obtain ⟨line', more', split'⟩ := exists_lines filled
      have inner := ih isOpen
      rw [split, split'] at inner
      rw [List.cons_append, lines_cons other split', lines_cons other split]
      simp only [List.flatMap_cons, List.cons_append, List.cons.injEq, true_and] at inner ⊢
      exact inner

theorem markedLines_eq (mark : Char) (text : List Char) :
    markedLines mark text = (markedPieces mark text).flatten := by
  rw [markedLines, markedPieces, terminated, List.flatten_append, ← List.flatMap_def]
  split
  next isOpen =>
    rw [flatten_marked_open mark isOpen, List.append_assoc]
    rfl
  next => exact (List.append_nil _).symm

theorem isLine_of_mem_markedPieces {mark : Char} (other : mark ≠ '\n') {text : List Char} :
    ∀ piece ∈ markedPieces mark text, IsLine piece := by
  intro piece member
  rcases List.mem_append.mp member with inLines | isMarker
  · obtain ⟨line, inText, rfl⟩ := List.mem_map.mp inLines
    exact (isLine_of_mem_lines (terminated_closed text) line inText).cons other
  · split at isMarker
    · rw [List.mem_singleton.mp isMarker]
      exact ⟨"\\ No newline at end of file".toList, rfl, by decide⟩
    · simp at isMarker

theorem lines_markedLines {mark : Char} (feed : mark ≠ '\n') {text : List Char} :
    lines (markedLines mark text) = markedPieces mark text := by
  rw [markedLines_eq, lines_flatten (isLine_of_mem_markedPieces feed)]

theorem marker_mem_iff {mark : Char} (feed : mark ≠ '\n') (other : mark ≠ '\\') {text : List Char} :
    marker ∈ lines (markedLines mark text) ↔ endsOpen text = true := by
  rw [lines_markedLines feed, markedPieces, List.mem_append]
  constructor
  · rintro (inLines | isMarker)
    · obtain ⟨line, -, same⟩ := List.mem_map.mp inLines
      exact absurd (List.cons.inj same).1 other
    · by_contra closed
      simp [closed] at isMarker
  · intro isOpen
    exact .inr (by simp [isOpen])

def Hunk.pieces (hunk : Hunk) : List (List Char) :=
  hunk.header :: (markedPieces '-' hunk.old ++ markedPieces '+' hunk.new)

theorem Hunk.render_eq (hunk : Hunk) : hunk.render = hunk.pieces.flatten := by
  rw [pieces, List.flatten_cons, List.flatten_append, ← markedLines_eq, ← markedLines_eq,
    ← List.append_assoc]
  rfl

theorem Hunk.isLine_of_mem_pieces {hunk : Hunk} : ∀ piece ∈ hunk.pieces, IsLine piece := by
  have header : IsLine hunk.header := by
    have stop : IsLine " @@\n".toList := ⟨" @@".toList, rfl, by decide⟩
    have number : ∀ (number : Nat) (line : List Char), IsLine line →
        IsLine ((toString number).toList ++ line) := fun number _ => .append (lineFeed_not_mem_repr number)
    rw [hunk.header_eq]
    refine .append (by decide) (number _ _ (.append (by decide) (number _ _ (.append (by decide) ?_))))
    exact number _ _ (.append (by decide) (number _ _ stop))
  refine List.forall_mem_cons.mpr ⟨header, fun piece member => ?_⟩
  rcases List.mem_append.mp member with old | new
  · exact isLine_of_mem_markedPieces (by decide) piece old
  · exact isLine_of_mem_markedPieces (by decide) piece new

/-! Reading. -/

/-- The hunk without the terminator of the line that was read last. -/
def Hunk.unterminated (hunk : Hunk) : Hunk :=
  if hunk.new = [] then { hunk with old := hunk.old.dropLast } else { hunk with new := hunk.new.dropLast }

/-- Read one line; the hunk that was begun last comes first. -/
def readLine (hunks : List Hunk) (line : List Char) : Option (List Hunk) :=
  match line, hunks with
  | '@' :: _, _ => (readHeader line).map (· :: hunks)
  | '-' :: content, hunk :: rest =>
      if hunk.new = [] then some ({ hunk with old := hunk.old ++ content } :: rest) else none
  | '+' :: content, hunk :: rest => some ({ hunk with new := hunk.new ++ content } :: rest)
  | _, hunk :: rest => if line = marker then some (hunk.unterminated :: rest) else none
  | _, [] => none

/-- The hunks of a diff of the file `path`. -/
def read (path : String) (diff : String) : Option (List Hunk) := do
  let body ← dropPrefix? (s!"--- a/{path}\n+++ b/{path}\n").toList diff.toList
  let hunks ← (lines body).foldlM readLine []
  return hunks.reverse

theorem foldlM_marked {mark : Char} {build : List Char → Hunk} {rest : List Hunk}
    (reads : ∀ passed content, readLine (build passed :: rest) (mark :: content) =
      some (build (passed ++ content) :: rest))
    (pieces : List (List Char)) (passed : List Char) :
    (pieces.map (mark :: ·)).foldlM readLine (build passed :: rest) =
      some (build (passed ++ pieces.flatten) :: rest) := by
  induction pieces generalizing passed with
  | nil => simp
  | cons piece pieces ih =>
      rw [List.map_cons, List.foldlM_cons, reads, Option.bind_eq_bind, Option.bind_some, ih,
        List.flatten_cons, List.append_assoc]

theorem foldlM_markedPieces {mark : Char} {build : List Char → Hunk} {rest : List Hunk}
    (reads : ∀ passed content, readLine (build passed :: rest) (mark :: content) =
      some (build (passed ++ content) :: rest))
    (ends : ∀ text, readLine (build (text ++ ['\n']) :: rest) marker = some (build text :: rest))
    (text : List Char) :
    (markedPieces mark text).foldlM readLine (build [] :: rest) = some (build text :: rest) := by
  rw [markedPieces, List.foldlM_append, foldlM_marked reads, flatten_lines, List.nil_append,
    Option.bind_eq_bind, Option.bind_some, terminated]
  split
  · simp only [List.foldlM_cons, ends, Option.bind_eq_bind, Option.bind_some]
    rfl
  · rfl

theorem readLine_header (hunks : List Hunk) (hunk : Hunk) :
    readLine hunks hunk.header = some ({ hunk with old := [], new := [] } :: hunks) := by
  have first : ∃ others, hunk.header = '@' :: others := ⟨_, hunk.header_eq⟩
  obtain ⟨others, parts⟩ := first
  have header := readHeader_header hunk
  rw [parts] at header ⊢
  rw [readLine, header, Option.map_some]

theorem readLine_marker (hunks : List Hunk) (hunk : Hunk) :
    readLine (hunk :: hunks) marker = some (hunk.unterminated :: hunks) := by
  obtain ⟨others, parts⟩ : ∃ others, marker = '\\' :: others := ⟨_, rfl⟩
  have other : readLine (hunk :: hunks) ('\\' :: others) =
      if '\\' :: others = marker then some (hunk.unterminated :: hunks) else none := rfl
  rw [parts, other, if_pos parts.symm]

theorem foldlM_pieces (hunks : List Hunk) (hunk : Hunk) :
    hunk.pieces.foldlM readLine hunks = some (hunk :: hunks) := by
  obtain ⟨oldStart, oldCount, newStart, newCount, old, new⟩ := hunk
  rw [Hunk.pieces, List.foldlM_cons, readLine_header, Option.bind_eq_bind, Option.bind_some,
    List.foldlM_append]
  have oldSide := @foldlM_markedPieces '-' (fun text => ⟨oldStart, oldCount, newStart, newCount, text, []⟩)
    hunks (fun passed content => rfl) (fun text => ?_) old
  have newSide := @foldlM_markedPieces '+' (fun text => ⟨oldStart, oldCount, newStart, newCount, old, text⟩)
    hunks (fun passed content => rfl) (fun text => ?_) new
  · rw [oldSide, Option.bind_eq_bind, Option.bind_some, newSide]
  · simp [readLine_marker, Hunk.unterminated]
  · simp [readLine_marker, Hunk.unterminated]

theorem foldlM_hunks (read hunks : List Hunk) :
    (hunks.flatMap Hunk.pieces).foldlM readLine read = some (hunks.reverse ++ read) := by
  induction hunks generalizing read with
  | nil => rfl
  | cons hunk hunks ih =>
      rw [List.flatMap_cons, List.foldlM_append, foldlM_pieces, Option.bind_eq_bind, Option.bind_some, ih]
      simp

theorem lines_render (hunks : List Hunk) :
    lines (hunks.flatMap Hunk.render) = hunks.flatMap Hunk.pieces := by
  have whole : hunks.flatMap Hunk.render = (hunks.flatMap Hunk.pieces).flatten := by
    induction hunks with
    | nil => rfl
    | cons hunk hunks ih =>
        rw [List.flatMap_cons, List.flatMap_cons, ih, List.flatten_append, Hunk.render_eq]
  rw [whole, lines_flatten]
  intro piece member
  obtain ⟨hunk, -, inPieces⟩ := List.mem_flatMap.mp member
  exact hunk.isLine_of_mem_pieces piece inPieces

theorem read_render {path text : String} {patches : List Patch} (some_ : patches ≠ []) :
    read path (render path text patches) = some (hunks text patches) := by
  have filled : ¬patches.isEmpty = true := by rwa [List.isEmpty_iff]
  rw [read, render, if_neg filled, @String.toList_append _ (String.ofList _), dropPrefix?_append]
  simp only [Option.bind_eq_bind, Option.bind_some, String.toList_ofList, lines_render, foldlM_hunks]
  simp

end Requalify.LineDiff
