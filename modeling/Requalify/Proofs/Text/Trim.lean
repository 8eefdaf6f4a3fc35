import Requalify.Text.Blank

/-! What trimming leaves of a text. -/

namespace Requalify.Text

theorem isBlank_of_asciiBlank {c : Char} (blank : isAsciiBlank c = true) : isBlank c = true := by
  simp only [isAsciiBlank, Bool.or_eq_true, beq_iff_eq] at blank
  rcases blank with (((rfl | rfl) | rfl) | rfl) | rfl
  all_goals decide

theorem trimStart_append {front rest : List Char} (blank : ∀ c ∈ front, isBlank c = true)
    (solid : rest.head?.any isBlank = false) : trimStart (front ++ rest) = rest := by
  rw [trimStart, List.dropWhile_append_of_pos blank]
  cases rest with
  | nil => rfl
  | cons c rest => exact List.dropWhile_cons_of_neg (by simpa using solid)

theorem trimEnd_append {front back : List Char} (blank : ∀ c ∈ back, isBlank c = true)
    (solid : front.getLast?.any isBlank = false) : trimEnd (front ++ back) = front := by
  have backward : trimStart (back.reverse ++ front.reverse) = front.reverse :=
    trimStart_append (fun c member => blank c (List.mem_reverse.mp member)) (by simpa using solid)
  rw [trimEnd, List.reverse_append]
  exact (congrArg List.reverse backward).trans (List.reverse_reverse front)

theorem trimEnd_parts (text : List Char) :
    ∃ blanks, text = trimEnd text ++ blanks ∧ ∀ c ∈ blanks, isBlank c = true := by
  refine ⟨(text.reverse.takeWhile isBlank).reverse, ?_, fun c member => ?_⟩
  · rw [trimEnd, ← List.reverse_append, List.takeWhile_append_dropWhile, List.reverse_reverse]
  · exact List.all_eq_true.mp List.all_takeWhile c (List.mem_reverse.mp member)

theorem mem_trimEnd {text : List Char} {c : Char} (member : c ∈ text) (solid : isBlank c = false) :
    c ∈ trimEnd text := by
  obtain ⟨blanks, parts, blank⟩ := trimEnd_parts text
  rw [parts] at member
  rcases List.mem_append.mp member with inFront | inBlanks
  · exact inFront
  · simp [blank c inBlanks] at solid

theorem trimStart_parts (text : List Char) :
    ∃ blanks, text = blanks ++ trimStart text ∧ ∀ c ∈ blanks, isBlank c = true :=
  ⟨text.takeWhile isBlank, List.takeWhile_append_dropWhile.symm,
    fun c member => List.all_eq_true.mp List.all_takeWhile c member⟩

/-- A text without blanks is left where blanks in front of it are trimmed. -/
theorem trim_append {front solid : List Char} (blank : ∀ c ∈ front, isBlank c = true)
    (nonblank : ∀ c ∈ solid, isBlank c = false) : trim (front ++ solid) = solid := by
  have first : solid.head?.any isBlank = false := by
    cases solid with
    | nil => rfl
    | cons c rest => exact nonblank c List.mem_cons_self
  have last : solid.getLast?.any isBlank = false := by
    cases ends : solid.getLast? with
    | none => rfl
    | some c => exact nonblank c (List.mem_of_getLast? ends)
  have whole := @trimEnd_append solid [] (by simp) last
  rw [List.append_nil] at whole
  rw [trim, trimStart_append blank first, whole]

theorem trim_eq_nil_iff {text : List Char} : trim text = [] ↔ ∀ c ∈ text, isBlank c = true := by
  constructor
  · intro empty c member
    cases solid : isBlank c with
    | true => rfl
    | false =>
        obtain ⟨blanks, parts, blank⟩ := trimStart_parts text
        rw [parts] at member
        rcases List.mem_append.mp member with inBlanks | kept
        · simp [blank c inBlanks] at solid
        · have trimmed : c ∈ trim text := mem_trimEnd kept solid
          simp [empty] at trimmed
  · intro blank
    have nothing := @trim_append text [] blank (by simp)
    rwa [List.append_nil] at nothing

end Requalify.Text
