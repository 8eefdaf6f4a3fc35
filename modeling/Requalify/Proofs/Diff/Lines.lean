import Mathlib.Data.List.Induction
import Mathlib.Data.List.TakeWhile
import Requalify.Patch.LineDiff
import Requalify.Proofs.Text.Encoding

/-!
The lines of a text, and where they begin and end. The lines of a text that ends with a line feed and the
lines of what follows it are the lines of both together. A line is found in the bytes of the text as well,
also from an offset inside a character.
-/

namespace Requalify.LineDiff

open Text (byteLength encoded)

@[simp]
theorem endsOpen_nil : endsOpen [] = false := rfl

@[simp]
theorem endsOpen_concat (front : List Char) (c : Char) : endsOpen (front ++ [c]) = (c != '\n') := by
  simp [endsOpen]

theorem endsOpen_append (front : List Char) {back : List Char} (nonempty : back ≠ []) :
    endsOpen (front ++ back) = endsOpen back := by
  have last : (front ++ back).getLast? = back.getLast? := by
    rw [List.getLast?_append, List.getLast?_eq_some_getLast nonempty, Option.some_or]
  rw [endsOpen, last, ← endsOpen]

theorem endsOpen_cons (c : Char) {rest : List Char} (nonempty : rest ≠ []) :
    endsOpen (c :: rest) = endsOpen rest :=
  endsOpen_append [c] nonempty

theorem endsOpen_lineFeed (rest : List Char) : endsOpen ('\n' :: rest) = endsOpen rest := by
  by_cases empty : rest = []
  · subst empty
    rfl
  · exact endsOpen_cons '\n' empty

theorem endsOpen_append_of_closed {front : List Char} (closed : endsOpen front = false)
    (back : List Char) : endsOpen (front ++ back) = endsOpen back := by
  by_cases empty : back = []
  · subst empty
    rw [List.append_nil, closed]
    rfl
  · exact endsOpen_append front empty

theorem ne_nil_of_endsOpen {text : List Char} (isOpen : endsOpen text = true) : text ≠ [] := by
  intro empty
  simp [empty] at isOpen

/-! Lines. -/

@[simp]
theorem lines_nil : lines [] = [] := rfl

@[simp]
theorem lines_lineFeed (rest : List Char) : lines ('\n' :: rest) = ['\n'] :: lines rest := by
  rw [lines]

theorem lines_single {c : Char} (other : c ≠ '\n') : lines [c] = [[c]] := by
  rw [lines.eq_5 c [] other (by simp) (by simp), lines_nil]

theorem lines_cons {c : Char} {rest line : List Char} {more : List (List Char)} (other : c ≠ '\n')
    (split : lines rest = line :: more) : lines (c :: rest) = (c :: line) :: more := by
  cases rest with
  | nil => simp at split
  | cons d rest =>
      by_cases feed : d = '\n'
      · subst feed
        exact lines.eq_3 c rest line more other split
      · exact lines.eq_4 c d rest line more other feed split

theorem exists_lines {text : List Char} (nonempty : text ≠ []) :
    ∃ line more, lines text = line :: more := by
  induction text with
  | nil => exact absurd rfl nonempty
  | cons c rest ih =>
      by_cases feed : c = '\n'
      · subst feed
        exact ⟨_, _, lines_lineFeed rest⟩
      · by_cases empty : rest = []
        · subst empty
          exact ⟨_, _, lines_single feed⟩
        · obtain ⟨line, more, split⟩ := ih empty
          exact ⟨_, _, lines_cons feed split⟩

/-- A proof for each way in which a text can begin. -/
theorem linesInduction {motive : List Char → Prop} (nil : motive [])
    (lineFeed : ∀ rest, motive rest → motive ('\n' :: rest))
    (single : ∀ c, c ≠ '\n' → motive [c])
    (cons : ∀ c rest line more, c ≠ '\n' → rest ≠ [] → lines rest = line :: more → motive rest →
      motive (c :: rest)) (text : List Char) : motive text := by
  induction text with
  | nil => exact nil
  | cons c rest ih =>
      by_cases feed : c = '\n'
      · exact feed ▸ lineFeed rest ih
      · by_cases empty : rest = []
        · exact empty ▸ single c feed
        · obtain ⟨line, more, split⟩ := exists_lines empty
          exact cons c rest line more feed empty split ih

theorem flatten_lines (text : List Char) : (lines text).flatten = text := by
  induction text using linesInduction with
  | nil => rfl
  | lineFeed rest ih => simp [ih]
  | single c other => simp [lines_single other]
  | cons c rest line more other _ split ih =>
      rw [split] at ih
      rw [lines_cons other split, ← ih]
      rfl

theorem length_lines (text : List Char) : (lines text).length = lineCount text := by
  induction text using linesInduction with
  | nil => rfl
  | lineFeed rest ih =>
      rw [lines_lineFeed, List.length_cons, ih, lineCount, lineCount, endsOpen_lineFeed,
        List.count_cons_self]
      omega
  | single c other => simp [lines_single other, lineCount, endsOpen, other]
  | cons c rest line more other nonempty split ih =>
      have same : (lines (c :: rest)).length = (lines rest).length := by
        rw [lines_cons other split, split]
        rfl
      rw [same, ih, lineCount, lineCount, endsOpen_cons c nonempty, List.count_cons_of_ne other]

theorem lines_append {front : List Char} (closed : endsOpen front = false) (back : List Char) :
    lines (front ++ back) = lines front ++ lines back := by
  induction front using linesInduction with
  | nil => rfl
  | lineFeed rest ih =>
      rw [endsOpen_lineFeed] at closed
      rw [List.cons_append, lines_lineFeed, ih closed, lines_lineFeed, List.cons_append]
  | single c other => simp [endsOpen, other] at closed
  | cons c rest line more other nonempty split ih =>
      rw [endsOpen_cons c nonempty] at closed
      have whole : lines (rest ++ back) = line :: (more ++ lines back) := by
        rw [ih closed, split]
        rfl
      rw [List.cons_append, lines_cons other whole, lines_cons other split]
      rfl

theorem lineCount_append {front : List Char} (closed : endsOpen front = false) (back : List Char) :
    lineCount (front ++ back) = lineCount front + lineCount back := by
  rw [← length_lines, lines_append closed, List.length_append, length_lines, length_lines]

theorem lineCount_of_closed {text : List Char} (closed : endsOpen text = false) :
    lineCount text = text.count '\n' := by
  simp [lineCount, closed]

theorem lineCount_le (front back : List Char) : lineCount front ≤ lineCount (front ++ back) := by
  by_cases empty : back = []
  · simp [empty]
  · rw [lineCount, lineCount, endsOpen_append front empty, List.count_append]
    by_cases isOpen : endsOpen back = true
    · rw [if_pos isOpen]
      split <;> omega
    · obtain ⟨body, last, rfl⟩ := List.eq_nil_or_concat back |>.resolve_left empty
      rw [List.concat_eq_append, endsOpen_concat, bne_iff_ne, ne_eq, Decidable.not_not] at isOpen
      rw [List.concat_eq_append, isOpen, List.count_append, List.count_singleton_self]
      split <;> omega

theorem lineCount_append_of_open {front back : List Char} (isOpen : endsOpen front = true)
    (filled : back ≠ []) : lineCount (front ++ back) + 1 = lineCount front + lineCount back := by
  rw [lineCount, lineCount, lineCount, endsOpen_append front filled, List.count_append, if_pos isOpen]
  omega

theorem lineCount_append_le (front back : List Char) :
    lineCount (front ++ back) ≤ lineCount front + lineCount back := by
  by_cases closed : endsOpen front = false
  · exact Nat.le_of_eq (lineCount_append closed back)
  · by_cases empty : back = []
    · simp [empty]
    · have total := lineCount_append_of_open (by simpa using closed) empty
      omega

theorem exists_line {text : List Char} (nonempty : text ≠ []) :
    ∃ line rest, text = line ++ rest ∧ line ≠ [] ∧ '\n' ∉ line.dropLast ∧
      (endsOpen line = false ∨ rest = []) := by
  induction text using linesInduction with
  | nil => exact absurd rfl nonempty
  | lineFeed rest => exact ⟨['\n'], rest, rfl, by simp, by simp, .inl rfl⟩
  | single c other => exact ⟨[c], [], rfl, by simp, by simp, .inr rfl⟩
  | cons c rest line more other some_ _ ih =>
      obtain ⟨line, rest, rfl, filled, inside, ends⟩ := ih some_
      refine ⟨c :: line, rest, rfl, by simp, ?_, ?_⟩
      · rw [List.dropLast_cons_of_ne_nil filled]
        simp only [List.mem_cons, not_or]
        exact ⟨Ne.symm other, inside⟩
      · rwa [endsOpen_cons c filled]

/-- The line in which a text ends, as far as it has come. -/
theorem exists_lineBefore (text : List Char) :
    ∃ front line, text = front ++ line ∧ endsOpen front = false ∧ '\n' ∉ line := by
  induction text using List.reverseRecOn with
  | nil => exact ⟨[], [], rfl, rfl, by simp⟩
  | append_singleton text c ih =>
      by_cases feed : c = '\n'
      · exact ⟨text ++ [c], [], by simp, by simp [feed], by simp⟩
      · obtain ⟨front, line, rfl, closed, inside⟩ := ih
        refine ⟨front, line ++ [c], by simp, closed, ?_⟩
        simp only [List.mem_append, List.mem_singleton, not_or]
        exact ⟨inside, Ne.symm feed⟩

/-! Lines in the bytes of a text. -/

theorem takeWhile_of_line {line : List Char} (inside : '\n' ∉ line) (rest : List Char) :
    (line ++ rest).takeWhile (· != '\n') = line ++ rest.takeWhile (· != '\n') := by
  refine List.takeWhile_append_of_pos fun c member => ?_
  rw [bne_iff_ne]
  rintro rfl
  exact inside member

theorem takeWhile_reverse_of_closed {text : List Char} (closed : endsOpen text = false) :
    text.reverse.takeWhile (· != '\n') = [] := by
  induction text using List.reverseRecOn with
  | nil => rfl
  | append_singleton text c ih =>
      have feed : c = '\n' := by simpa using closed
      simp [feed]

theorem lineStart_encoded {front line : List Char} (closed : endsOpen front = false)
    (inside : '\n' ∉ line) (back : List Char) :
    Text.lineStart (encoded (front ++ line ++ back)) (byteLength (front ++ line)) =
      byteLength front := by
  have behind : '\n' ∉ line.reverse := fun member => inside (List.mem_reverse.mp member)
  have before : (Text.lineBefore (encoded (front ++ line ++ back))
      (byteLength (front ++ line))).length = byteLength line := by
    rw [Text.lineBefore, Text.take_encoded, Text.reflects_lineFeed.takeWhile_reverse, List.length_reverse,
      Text.length_encoded, List.reverse_append, takeWhile_of_line behind, takeWhile_reverse_of_closed closed,
      List.append_nil, List.reverse_reverse]
  rw [Text.lineStart, before, Text.length_encoded, Text.byteLength_append]
  simp only [Text.byteLength_append]
  omega

theorem ne_lineFeed_of_line {line : List Char} (inside : '\n' ∉ line) {byte : UInt8}
    (member : byte ∈ encoded line) : (byte != Text.lineFeed) = true := by
  obtain ⟨c, here, found⟩ := List.mem_flatMap.mp member
  have other : (c != '\n') = true := by
    rw [bne_iff_ne]
    rintro rfl
    exact inside here
  exact (Text.reflects_lineFeed c byte found).trans other

theorem lineLength_of_closed {body : List Char} (inside : '\n' ∉ body) (rest : List Char)
    {passed : Nat} (within : passed ≤ byteLength body) :
    (((encoded (body ++ ['\n'])).drop passed ++ encoded rest).takeWhile
      (· != Text.lineFeed)).length = byteLength body - passed := by
  have short : passed ≤ (encoded body).length := by rwa [Text.length_encoded]
  have others : ∀ byte ∈ (encoded body).drop passed, (byte != Text.lineFeed) = true :=
    fun byte member => ne_lineFeed_of_line inside (List.mem_of_mem_drop member)
  have line : ((encoded (body ++ ['\n'])).drop passed ++ encoded rest).takeWhile
      (· != Text.lineFeed) = (encoded body).drop passed := by
    rw [Text.encoded_append, List.drop_append_of_le_length short, List.append_assoc,
      List.takeWhile_append_of_pos others]
    exact List.append_nil _
  rw [line, List.length_drop, Text.length_encoded]

theorem lineLength_of_open {line : List Char} (inside : '\n' ∉ line) (passed : Nat) :
    (((encoded line).drop passed).takeWhile (· != Text.lineFeed)).length =
      byteLength line - passed := by
  have others : ∀ byte ∈ (encoded line).drop passed, (byte != Text.lineFeed) = true :=
    fun byte member => ne_lineFeed_of_line inside (List.mem_of_mem_drop member)
  rw [List.takeWhile_eq_self_iff.mpr others, List.length_drop, Text.length_encoded]

/-- The offset may lie inside a character of the line. -/
theorem lineEnd_encoded {front line rest : List Char} {offset : Nat} (filled : line ≠ [])
    (inside : '\n' ∉ line.dropLast) (ends : endsOpen line = false ∨ rest = [])
    (from_ : byteLength front ≤ offset) (upTo : offset < byteLength (front ++ line)) :
    Text.lineEnd (encoded (front ++ line ++ rest)) offset = byteLength (front ++ line) := by
  have size : (encoded (front ++ line ++ rest)).length =
      byteLength front + byteLength line + byteLength rest := by
    rw [Text.length_encoded, Text.byteLength_append, Text.byteLength_append]
  rw [Text.byteLength_append] at upTo ⊢
  have clamped : min offset (encoded (front ++ line ++ rest)).length = offset := by omega
  have after : (encoded (front ++ line ++ rest)).drop offset =
      (encoded line).drop (offset - byteLength front) ++ encoded rest := by
    have parts : offset = byteLength front + (offset - byteLength front) := by omega
    have within : offset - byteLength front ≤ (encoded line).length := by
      rw [Text.length_encoded]
      omega
    rw [parts, ← List.drop_drop, List.append_assoc, Text.drop_encoded, Text.encoded_append,
      List.drop_append_of_le_length (by simpa using within), Nat.add_sub_cancel_left]
  rw [Text.lineEnd, clamped, after, size]
  obtain ⟨body, last, rfl⟩ := List.eq_nil_or_concat line |>.resolve_left filled
  rw [List.concat_eq_append] at *
  rw [List.dropLast_concat] at inside
  by_cases feed : last = '\n'
  · subst feed
    have width : byteLength (body ++ ['\n']) = byteLength body + 1 := by
      rw [Text.byteLength_append]
      rfl
    rw [lineLength_of_closed inside rest (by omega)]
    omega
  · have isOpen : endsOpen (body ++ [last]) = true := by simpa using feed
    have atEnd : rest = [] := by
      rcases ends with closed | atEnd
      · simp [isOpen] at closed
      · exact atEnd
    have free : '\n' ∉ body ++ [last] := by
      simp only [List.mem_append, List.mem_singleton, not_or]
      exact ⟨inside, Ne.symm feed⟩
    subst atEnd
    rw [Text.encoded_nil, List.append_nil, lineLength_of_open free, Text.byteLength_nil]
    omega

end Requalify.LineDiff
