import Mathlib.Data.List.TakeWhile
import Requalify.Proofs.Text.Character
import Requalify.Text.Removal

/-!
What a removal takes beside its statement: spaces and tabs in front of it, up to the beginning of its
line, and behind it spaces, tabs and at most one line feed, which is then the last character removed.
-/

namespace Requalify.Text

theorem utf8Size_of_horizontal {c : Char} (horizontal : isHorizontal c = true) : c.utf8Size = 1 := by
  simp [isHorizontal] at horizontal
  rcases horizontal with rfl | rfl
  · rfl
  · rfl

theorem byteLength_of_narrow {text : List Char} (narrow : ∀ c ∈ text, c.utf8Size = 1) :
    byteLength text = text.length := by
  induction text with
  | nil => rfl
  | cons c rest ih =>
      rw [byteLength_cons, List.length_cons, narrow c (by simp),
        ih fun d member => narrow d (by simp [member])]
      omega

theorem leadingBlanks_parts (before : List Char) :
    ∃ blanks rest, before = blanks ++ rest ∧ leadingBlanks before = blanks.length ∧
      (∀ c ∈ blanks, isHorizontal c = true) ∧
      (blanks = [] ∨ rest = [] ∨ ∃ others, rest = '\n' :: others) := by
  have parts : before = before.takeWhile isHorizontal ++ before.dropWhile isHorizontal :=
    List.takeWhile_append_dropWhile.symm
  have horizontal : ∀ c ∈ before.takeWhile isHorizontal, isHorizontal c = true := fun c member =>
    List.mem_takeWhile_imp member
  simp only [leadingBlanks, ← dropWhile_eq_drop]
  split
  next atStart => exact ⟨_, _, parts, rfl, horizontal, .inr (.inl atStart)⟩
  next c others rest =>
    split
    next lineFeed =>
      exact ⟨_, _, parts, rfl, horizontal, .inr (.inr ⟨others, by rw [rest, lineFeed]⟩)⟩
    next => exact ⟨[], before, rfl, rfl, by simp, .inl rfl⟩

/-- A character that a removal may take behind its statement, `behind` it as many others. -/
def EndsLine (c : Char) (behind : List Char) : Prop :=
  isHorizontal c = true ∨ c = '\r' ∨ c = '\n' ∧ behind = []

theorem endsLine_of_append {spaces ending : List Char}
    (horizontal : ∀ c ∈ spaces, isHorizontal c = true)
    (ends : ∀ front c behind, ending = front ++ c :: behind → EndsLine c behind)
    {front behind : List Char} {c : Char} (parts : spaces ++ ending = front ++ c :: behind) :
    EndsLine c behind := by
  rcases List.append_eq_append_iff.mp parts with ⟨more, -, rest⟩ | ⟨more, whole, rest⟩
  · exact ends more c behind rest
  · cases more with
    | nil => exact ends [] c behind rest.symm
    | cons d more =>
        obtain ⟨rfl, -⟩ := List.cons.inj rest
        exact .inl (horizontal c (by simp [whole]))

theorem endsLine_lineFeed {front behind : List Char} {c : Char}
    (parts : ['\n'] = front ++ c :: behind) : EndsLine c behind := by
  cases front with
  | nil =>
      obtain ⟨rfl, rfl⟩ := List.cons.inj parts
      exact .inr (.inr ⟨rfl, rfl⟩)
  | cons d front => simp at parts

theorem endsLine_return {front behind : List Char} {c : Char}
    (parts : ['\r', '\n'] = front ++ c :: behind) : EndsLine c behind := by
  cases front with
  | nil =>
      obtain ⟨rfl, -⟩ := List.cons.inj parts
      exact .inr (.inl rfl)
  | cons d front => exact endsLine_lineFeed (List.cons.inj parts).2

theorem trailingBlanks_parts (after : List Char) :
    ∃ blanks rest, after = blanks ++ rest ∧ trailingBlanks after = blanks.length ∧
      ∀ front c behind, blanks = front ++ c :: behind → EndsLine c behind := by
  have parts : after = after.takeWhile isHorizontal ++ after.dropWhile isHorizontal :=
    List.takeWhile_append_dropWhile.symm
  have horizontal : ∀ c ∈ after.takeWhile isHorizontal, isHorizontal c = true := fun c member =>
    List.mem_takeWhile_imp member
  simp only [trailingBlanks, ← dropWhile_eq_drop]
  split
  next =>
    refine ⟨_, _, parts, rfl, fun front c behind whole => .inl (horizontal c ?_)⟩
    simp [whole]
  next others rest =>
    refine ⟨after.takeWhile isHorizontal ++ ['\n'], others, ?_, by simp, fun front c behind whole =>
      endsLine_of_append horizontal (fun _ _ _ => endsLine_lineFeed) whole⟩
    rw [List.append_assoc, List.singleton_append, ← rest]
    exact parts
  next others rest =>
    refine ⟨after.takeWhile isHorizontal ++ ['\r', '\n'], others, ?_, by simp,
      fun front c behind whole =>
        endsLine_of_append horizontal (fun _ _ _ => endsLine_return) whole⟩
    rw [List.append_assoc, List.cons_append, List.singleton_append, ← rest]
    exact parts
  next => exact ⟨[], after, rfl, rfl, by simp⟩

theorem utf8Size_of_endsLine {c : Char} {behind : List Char} (ends : EndsLine c behind) :
    c.utf8Size = 1 := by
  rcases ends with horizontal | rfl | ⟨rfl, -⟩
  · exact utf8Size_of_horizontal horizontal
  · rfl
  · rfl

/-- Each end of a statement that cuts no character grows by what stands next to it. -/
theorem expandRemoval_eq {before middle : List Char} (after : List Char) {statement : Span}
    (start : statement.start = byteLength before)
    (stop : statement.stop = byteLength before + byteLength middle) :
    expandRemoval (before ++ (middle ++ after)) statement =
      Span.between (byteLength before - leadingBlanks before.reverse)
        (statement.stop + trailingBlanks after) := by
  have size : byteLength (before ++ (middle ++ after)) =
      byteLength before + byteLength middle + byteLength after := by
    simp [Nat.add_assoc]
  have first : min statement.start (byteLength (before ++ (middle ++ after))) =
      byteLength before := by omega
  have last : max (byteLength before)
      (min statement.stop (byteLength (before ++ (middle ++ after)))) = statement.stop := by omega
  have atFirst : splitAt? (before ++ (middle ++ after)) (byteLength before) =
      some (before, middle ++ after) := splitAt?_append _ _
  have atLast : splitAt? (before ++ (middle ++ after)) statement.stop =
      some (before ++ middle, after) := by
    rw [splitAt?_eq_some_iff, stop]
    simp
  simp only [expandRemoval, first, last, atFirst, atLast]

theorem expandRemoval_parts {before middle : List Char} (after : List Char) {statement : Span}
    (start : statement.start = byteLength before)
    (stop : statement.stop = byteLength before + byteLength middle) :
    ∃ front lead trail back, before = front ++ lead ∧ after = trail ++ back ∧
      (∀ c ∈ lead, isHorizontal c = true) ∧
      (lead = [] ∨ front = [] ∨ ∃ others, front = others ++ ['\n']) ∧
      (∀ passed c behind, trail = passed ++ c :: behind → EndsLine c behind) ∧
      (expandRemoval (before ++ (middle ++ after)) statement).start = byteLength front ∧
      (expandRemoval (before ++ (middle ++ after)) statement).stop =
        statement.stop + byteLength trail := by
  obtain ⟨lead, front, frontParts, leadLength, horizontal, lineStart⟩ :=
    leadingBlanks_parts before.reverse
  obtain ⟨trail, back, backParts, trailLength, ends⟩ := trailingBlanks_parts after
  have beforeParts : before = front.reverse ++ lead.reverse := by
    rw [← List.reverse_append, ← frontParts, List.reverse_reverse]
  have leadSize : byteLength lead.reverse = lead.length := by
    rw [byteLength_of_narrow, List.length_reverse]
    exact fun c member => utf8Size_of_horizontal (horizontal c (List.mem_reverse.mp member))
  have trailSize : byteLength trail = trail.length := by
    apply byteLength_of_narrow
    intro c member
    obtain ⟨passed, behind, parts⟩ := List.append_of_mem member
    exact utf8Size_of_endsLine (ends passed c behind parts)
  have beforeSize := congrArg byteLength beforeParts
  rw [byteLength_append, leadSize] at beforeSize
  refine ⟨front.reverse, lead.reverse, trail, back, beforeParts, backParts, ?_, ?_, ends, ?_, ?_⟩
  · exact fun c member => horizontal c (List.mem_reverse.mp member)
  · rcases lineStart with rfl | rfl | ⟨others, rfl⟩
    · exact .inl rfl
    · exact .inr (.inl rfl)
    · exact .inr (.inr ⟨others.reverse, by simp⟩)
  · rw [expandRemoval_eq after start stop, leadLength, Span.between]
    dsimp only
    omega
  · rw [expandRemoval_eq after start stop, trailLength, Span.between]
    dsimp only
    omega

/-- What `removal` takes beside `statement`. -/
structure Grown (text : List Char) (statement removal : Span) : Prop where
  start_le : removal.start ≤ statement.start
  le_stop : statement.stop ≤ removal.stop
  startBoundary : isBoundary text removal.start = true
  stopBoundary : isBoundary text removal.stop = true
  lead : ∀ offset c, At text offset c → removal.start ≤ offset → offset < statement.start →
    isHorizontal c = true
  lineStart : removal.start = statement.start ∨ removal.start = 0 ∨
    ∃ offset, At text offset '\n' ∧ offset + 1 = removal.start
  trail : ∀ offset c, At text offset c → statement.stop ≤ offset → offset < removal.stop →
    isHorizontal c = true ∨ c = '\r' ∨ c = '\n' ∧ offset + 1 = removal.stop

theorem expandRemoval_grown {before middle : List Char} (after : List Char) {statement : Span}
    (start : statement.start = byteLength before)
    (stop : statement.stop = byteLength before + byteLength middle) :
    Grown (before ++ (middle ++ after)) statement
      (expandRemoval (before ++ (middle ++ after)) statement) := by
  obtain ⟨front, lead, trail, back, rfl, rfl, horizontal, lineStart, ends, startEq, stopEq⟩ :=
    expandRemoval_parts after start stop
  generalize expandRemoval _ statement = removal at startEq stopEq
  rw [byteLength_append] at start stop
  refine ⟨by omega, by omega, ?_, ?_, ?_, ?_, ?_⟩
  · rw [startEq, List.append_assoc]
    exact isBoundary_length _ _
  · have whole : front ++ lead ++ (middle ++ (trail ++ back)) =
        (front ++ lead ++ middle ++ trail) ++ back := by simp
    have length : removal.stop = byteLength (front ++ lead ++ middle ++ trail) := by
      simp only [byteLength_append]
      omega
    rw [whole, length]
    exact isBoundary_length _ _
  · intro offset c here from_ upTo
    rw [List.append_assoc] at here
    obtain ⟨passed, behind, parts, -⟩ := here.of_part (by omega) (by omega)
    exact horizontal c (by simp [parts])
  · rcases lineStart with rfl | rfl | ⟨others, rfl⟩
    · exact .inl (by simpa [startEq] using start.symm)
    · exact .inr (.inl startEq)
    · refine .inr (.inr ⟨byteLength others, ⟨others, lead ++ (middle ++ (trail ++ back)), ?_, rfl⟩, ?_⟩)
      · simp
      · rw [startEq, byteLength_append]
        rfl
  · intro offset c here from_ upTo
    have whole : front ++ lead ++ (middle ++ (trail ++ back)) =
        (front ++ lead ++ middle) ++ (trail ++ back) := by simp
    rw [whole] at here
    have length : byteLength (front ++ lead ++ middle) = statement.stop := by
      simp only [byteLength_append]
      omega
    obtain ⟨passed, behind, parts, place⟩ := here.of_part (by omega) (by omega)
    rcases ends passed c behind parts with isBlank | isReturn | ⟨isFeed, rfl⟩
    · exact .inl isBlank
    · exact .inr (.inl isReturn)
    · refine .inr (.inr ⟨isFeed, ?_⟩)
      rw [stopEq, parts, place, length, byteLength_append, byteLength_cons, isFeed, byteLength_nil]
      have narrow : '\n'.utf8Size = 1 := rfl
      omega

end Requalify.Text
