import Requalify.Proofs.Edit.Qualifier
import Requalify.Proofs.Text.Trim

/-!
The pieces between the separators of a qualifier. Each piece that is not blank is read as a name, so the first
names lie behind blank pieces and blanks, and what follows them is read as the names that follow.
-/

namespace Requalify

namespace NamespacePath

theorem pieces_append {front : List Char} (apart : front.getLast? ≠ some ':') (rest : List Char) :
    pieces (front ++ ':' :: ':' :: rest) = pieces front ++ pieces rest := by
  fun_induction pieces front with
  | case1 => rfl
  | case2 front ih =>
      have apart' : front.getLast? ≠ some ':' := by
        intro last
        simp [List.getLast?_cons, last] at apart
      rw [List.cons_append, List.cons_append, pieces, ih apart', List.cons_append]
  | case3 c front _ nothing ih => exact absurd nothing (pieces_ne_nil front)
  | case4 c front single piece more parts ih =>
      have apart' : front.getLast? ≠ some ':' := by
        intro last
        simp [List.getLast?_cons, last] at apart
      have single' : ∀ others, c = ':' → front ++ ':' :: ':' :: rest = ':' :: others → False := by
        intro others colon same
        cases front with
        | nil => simp [colon] at apart
        | cons d front => exact single front colon (by rw [(List.cons.inj same).1])
      rw [List.cons_append, pieces.eq_3 _ _ single', ih apart', parts]
      rfl

theorem pieces_eq_singleton {text : List Char} (single : (pieces text).length = 1) :
    pieces text = [text] := by
  obtain ⟨piece, parts⟩ := List.length_eq_one_iff.mp single
  have whole := intercalate_pieces text
  rw [parts, List.intercalate_singleton] at whole
  rw [parts, whole]

theorem pieces_of_plain {text : List Char} (plain : ':' ∉ text) : pieces text = [text] := by
  induction text with
  | nil => rfl
  | cons c text ih =>
      rw [List.mem_cons, not_or] at plain
      rw [pieces.eq_3 _ _ fun _ colon => absurd colon.symm plain.1, ih plain.2]

/-- Pieces with a separator behind each. -/
def ended (pieces : List (List Char)) : List Char :=
  pieces.flatMap (· ++ [':', ':'])

theorem pieces_cases (text : List Char) : pieces text = [text] ∨
    ∃ piece rest, text = piece ++ ':' :: ':' :: rest ∧ pieces text = piece :: pieces rest := by
  fun_induction pieces text with
  | case1 => exact .inl rfl
  | case2 rest => exact .inr ⟨[], rest, rfl, rfl⟩
  | case3 c rest _ nothing => exact absurd nothing (pieces_ne_nil rest)
  | case4 c rest _ piece more parts ih =>
      rw [parts] at ih
      rcases ih with single | ⟨front, back, rfl, split⟩
      · obtain ⟨rfl, rfl⟩ := List.cons.inj single
        exact .inl rfl
      · obtain ⟨rfl, rfl⟩ := List.cons.inj split
        exact .inr ⟨c :: piece, back, rfl, rfl⟩

/-- A text is one piece, or a piece and a separator in front of a text. -/
theorem pieces_induction {motive : List Char → Prop}
    (single : ∀ text, pieces text = [text] → motive text)
    (cons : ∀ piece rest, pieces (piece ++ ':' :: ':' :: rest) = piece :: pieces rest → motive rest →
      motive (piece ++ ':' :: ':' :: rest)) (text : List Char) : motive text := by
  induction size : text.length using Nat.strongRecOn generalizing text with
  | ind size ih =>
      rcases pieces_cases text with alone | ⟨piece, rest, rfl, split⟩
      · exact single text alone
      · refine cons piece rest split (ih rest.length ?_ rest rfl)
        simp only [List.length_append, List.length_cons] at size
        omega

theorem pieces_ended {front : List (List Char)} (plain : ∀ piece ∈ front, ':' ∉ piece) (rest : List Char) :
    pieces (ended front ++ rest) = front ++ pieces rest := by
  induction front with
  | nil => rfl
  | cons piece front ih =>
      obtain ⟨first, plain⟩ := List.forall_mem_cons.mp plain
      have apart : piece.getLast? ≠ some ':' := fun last => first (List.mem_of_getLast? last)
      rw [ended, List.flatMap_cons, ← ended, List.append_assoc, List.append_assoc, List.cons_append,
        List.cons_append, List.nil_append, pieces_append apart, pieces_of_plain first, ih plain]
      rfl

/-- The path of one piece. -/
def ofPiece (piece : List Char) : List String :=
  if (Text.trim piece).isEmpty then [] else [String.ofList (Text.trim piece)]

theorem parse_ofList (text : List Char) :
    (parse (String.ofList text)).segments = (pieces text).flatMap ofPiece := by
  rw [parse, String.toList_ofList]
  induction pieces text with
  | nil => rfl
  | cons piece rest ih =>
      rw [List.map_cons, List.filter_cons, List.flatMap_cons, ofPiece, ← ih]
      cases (Text.trim piece).isEmpty <;> rfl

theorem ofPiece_of_blank {piece : List Char} (blank : ∀ c ∈ piece, Text.isBlank c = true) :
    ofPiece piece = [] := by
  simp [ofPiece, Text.trim_eq_nil_iff.mpr blank]

theorem ofPiece_of_name {lead name : List Char} (blank : ∀ c ∈ lead, Text.isBlank c = true)
    (solid : ∀ c ∈ name, Text.isBlank c = false) (filled : name ≠ []) :
    ofPiece (lead ++ name) = [String.ofList name] := by
  simp [ofPiece, Text.trim_append blank solid, filled]

theorem not_colon_of_blank {piece : List Char} (blank : ∀ c ∈ piece, Text.isBlank c = true) :
    ':' ∉ piece := fun member =>
  absurd (blank _ member) (by decide)

end NamespacePath

namespace WrittenQualifier

open NamespacePath Text

/-- The path of a qualifier is the one that its text spells. -/
theorem readText_path (text : List Char) (span : Span) :
    (readText text span).path = NamespacePath.parse (String.ofList text) := by
  have names (offset : Nat) (pieces : List (List Char)) : (namesFrom offset pieces).map (·.text) =
      ((pieces.map trim).filter (!·.isEmpty)).map String.ofList := by
    induction pieces generalizing offset with
    | nil => rfl
    | cons piece rest ih =>
        rw [namesFrom, List.map_cons, List.filter_cons]
        cases empty : (trim piece).isEmpty with
        | true => simpa [empty] using ih _
        | false => simpa [empty] using ih _
  rw [path, readText, NamespacePath.parse, String.toList_ofList, names]

/-! What is read of a text, by its pieces. -/

section Pieces

variable {piece rest text : List Char} {offset : Nat}

theorem namesFrom_single (offset : Nat) (text : List Char) : namesFrom offset [text] =
    if (trim text).isEmpty then []
    else [⟨String.ofList (trim text), offset + (byteLength text - byteLength (trimStart text)),
      offset + byteLength text⟩] := by
  simp [namesFrom]

theorem namesFrom_cons (offset : Nat) (piece rest : List Char) : namesFrom offset (piece :: pieces rest) =
    if (trim piece).isEmpty then namesFrom (offset + byteLength piece + 2) (pieces rest)
    else ⟨String.ofList (trim piece), offset + (byteLength piece - byteLength (trimStart piece)),
      offset + byteLength piece + 2⟩ :: namesFrom (offset + byteLength piece + 2) (pieces rest) := by
  rw [namesFrom]
  simp [pieces_ne_nil rest]

/-- The blanks in front of a piece take up what trimming leaves out there. -/
theorem blanks_parts (piece : List Char) : ∃ lead, piece = lead ++ trimStart piece ∧
    (∀ c ∈ lead, isBlank c = true) ∧
    byteLength piece - byteLength (trimStart piece) = byteLength lead := by
  obtain ⟨lead, parts, blank⟩ := trimStart_parts piece
  have size := congrArg byteLength parts
  rw [byteLength_append] at size
  exact ⟨lead, parts, blank, by omega⟩

/-- A piece that is not blank holds its name behind its blanks. -/
theorem trimStart_inside (named : ¬(trim piece).isEmpty = true) :
    byteLength piece - byteLength (trimStart piece) < byteLength piece := by
  obtain ⟨lead, parts, -⟩ := trimStart_parts piece
  have whole := congrArg byteLength parts
  rw [byteLength_append] at whole
  cases solid : trimStart piece with
  | nil => simp [trim, solid, trimEnd] at named
  | cons c others =>
      have positive := c.utf8Size_pos
      rw [solid, byteLength_cons] at whole
      rw [byteLength_cons]
      omega

theorem byteLength_separated (piece rest : List Char) :
    byteLength (piece ++ ':' :: ':' :: rest) = byteLength piece + 2 + byteLength rest := by
  have colon : ':'.utf8Size = 1 := rfl
  simp only [byteLength_append, byteLength_cons, colon]
  omega

end Pieces

/-- The names of a qualifier follow each other, and each takes up a part of the text. -/
theorem namesFrom_ordered (offset : Nat) (text : List Char) :
    (∀ name ∈ namesFrom offset (pieces text), offset ≤ name.start ∧ name.start < name.stop ∧
      name.stop ≤ offset + byteLength text) ∧
    (namesFrom offset (pieces text)).Pairwise fun first second => first.stop ≤ second.start := by
  induction text using pieces_induction generalizing offset with
  | single text alone =>
      rw [alone, namesFrom_single]
      split
      next => simp
      next named =>
        have begins := trimStart_inside named
        refine ⟨List.forall_mem_singleton.mpr ?_, List.pairwise_singleton _ _⟩
        dsimp only
        omega
  | cons piece rest split ih =>
      obtain ⟨inside, ordered⟩ := ih (offset + byteLength piece + 2)
      have size := byteLength_separated piece rest
      have later : ∀ name ∈ namesFrom (offset + byteLength piece + 2) (pieces rest),
          offset + byteLength piece + 2 ≤ name.start ∧ name.start < name.stop ∧
            name.stop ≤ offset + byteLength (piece ++ ':' :: ':' :: rest) := by
        intro name member
        have bounds := inside name member
        omega
      rw [split, namesFrom_cons]
      split
      next =>
        refine ⟨fun name member => ?_, ordered⟩
        have bounds := later name member
        omega
      next named =>
        have begins := trimStart_inside named
        refine ⟨List.forall_mem_cons.mpr ⟨?_, fun name member => ?_⟩,
          List.pairwise_cons.mpr ⟨fun name member => (later name member).1, ordered⟩⟩
        · dsimp only
          omega
        · have bounds := later name member
          omega

/-- Behind a name stands text that is read as the names that follow. -/
theorem exists_behind {offset count : Nat} {text : List Char} {name : WrittenName}
    (here : (namesFrom offset (pieces text))[count]? = some name) :
    ∃ through behind, text = through ++ behind ∧ name.stop = offset + byteLength through ∧
      (pieces behind).flatMap ofPiece = ((pieces text).flatMap ofPiece).drop (count + 1) := by
  induction text using pieces_induction generalizing offset count with
  | single text alone =>
      rw [alone, namesFrom_single] at here
      split at here
      next => simp at here
      next named =>
        obtain ⟨rfl, rfl⟩ : count = 0 ∧ _ = name := by
          cases count with
          | zero => exact ⟨rfl, Option.some.inj here⟩
          | succ count => simp at here
        refine ⟨text, [], (List.append_nil text).symm, rfl, ?_⟩
        simp [alone, ofPiece, named, pieces]
        rfl
  | cons piece rest split ih =>
      have size := byteLength_separated piece []
      rw [byteLength_nil] at size
      have whole (through behind : List Char) : piece ++ ':' :: ':' :: (through ++ behind) =
          (piece ++ ':' :: ':' :: through) ++ behind := by simp
      rw [split, namesFrom_cons] at here
      rw [split, List.flatMap_cons, ofPiece]
      split at here
      next empty =>
        obtain ⟨through, behind, rfl, stop, others⟩ := ih here
        have width := byteLength_separated piece through
        refine ⟨piece ++ ':' :: ':' :: through, behind, whole through behind, by omega, ?_⟩
        rw [if_pos empty, others, List.nil_append]
      next named =>
        rw [if_neg named, List.singleton_append, List.drop_succ_cons]
        cases count with
        | zero =>
            obtain rfl := Option.some.inj here
            refine ⟨piece ++ ':' :: ':' :: [], rest, whole [] rest, ?_, rfl⟩
            dsimp only
            omega
        | succ count =>
            obtain ⟨through, behind, rfl, stop, others⟩ := ih here
            have width := byteLength_separated piece through
            exact ⟨piece ++ ':' :: ':' :: through, behind, whole through behind, by omega, others⟩

theorem leading_of_alone {text : List Char} {span : Span} (alone : pieces text = [text]) :
    (readText text span).leading = none := by
  rw [readText, alone]

theorem leading_of_cons {text piece : List Char} {others : List (List Char)} {span : Span}
    (split : pieces text = piece :: others) (more : others ≠ []) :
    (readText text span).leading = if (trim piece).isEmpty then some (byteLength piece + 2) else none := by
  obtain ⟨next, more, rfl⟩ := List.exists_cons_of_ne_nil more
  rw [readText, split]

/-- In front of the first name stand blank pieces and blanks. There is a leading `::` if there are such
pieces. -/
theorem exists_ahead {offset : Nat} {text : List Char} {name : WrittenName} (span : Span)
    (first : (namesFrom offset (pieces text)).head? = some name) :
    ∃ blanks lead solid, text = ended blanks ++ (lead ++ solid) ∧
      name.start = offset + byteLength (ended blanks ++ lead) ∧
      (∀ piece ∈ blanks, ∀ c ∈ piece, isBlank c = true) ∧ (∀ c ∈ lead, isBlank c = true) ∧
      (readText text span).leading.isSome = !blanks.isEmpty := by
  induction text using pieces_induction generalizing offset with
  | single text alone =>
      obtain ⟨lead, parts, blank, size⟩ := blanks_parts text
      rw [alone, namesFrom_single] at first
      split at first
      next => simp at first
      next named =>
        obtain rfl := Option.some.inj first
        refine ⟨[], lead, trimStart text, parts, congrArg (offset + ·) size, by simp, blank, ?_⟩
        rw [leading_of_alone alone]
        rfl
  | cons piece rest split ih =>
      rw [leading_of_cons split (pieces_ne_nil rest)]
      rw [split, namesFrom_cons] at first
      split at first
      next empty =>
        obtain ⟨blanks, lead, solid, rfl, start, blankPieces, blankLead, -⟩ := ih first
        have width := byteLength_separated piece (ended blanks ++ lead)
        have front : ended (piece :: blanks) ++ lead = piece ++ ':' :: ':' :: (ended blanks ++ lead) := by
          simp [ended]
        refine ⟨piece :: blanks, lead, solid, by simp [ended], by rw [front]; omega, ?_, blankLead, ?_⟩
        · exact List.forall_mem_cons.mpr
            ⟨trim_eq_nil_iff.mp (List.isEmpty_iff.mp empty), blankPieces⟩
        · rw [if_pos empty]
          rfl
      next named =>
        obtain ⟨lead, parts, blank, size⟩ := blanks_parts piece
        obtain rfl := Option.some.inj first
        refine ⟨[], lead, trimStart piece ++ ':' :: ':' :: rest, ?_, congrArg (offset + ·) size, by simp,
          blank, ?_⟩
        · calc
            piece ++ ':' :: ':' :: rest = (lead ++ trimStart piece) ++ ':' :: ':' :: rest := by rw [← parts]
            _ = lead ++ (trimStart piece ++ ':' :: ':' :: rest) := List.append_assoc _ _ _
        · rw [if_neg named]
          rfl

/-- How the first names of a qualifier lie in its text: behind blank pieces and blanks, and in front of text
that is read as the names that follow. -/
structure Cut (text : List Char) (span : Span) (count : Nat) (blanks : List (List Char))
    (lead removed behind : List Char) : Prop where
  parts : text = ended blanks ++ (lead ++ (removed ++ behind))
  start : ((readText text span).leadingSpan count).start = span.start + byteLength (ended blanks ++ lead)
  length : ((readText text span).leadingSpan count).length = byteLength removed
  blankPieces : ∀ piece ∈ blanks, ∀ c ∈ piece, isBlank c = true
  blankLead : ∀ c ∈ lead, isBlank c = true
  others : (pieces behind).flatMap ofPiece = ((pieces text).flatMap ofPiece).drop count
  leading : (readText text span).leading.isSome = !blanks.isEmpty

/-- Where no name is replaced, text comes in front of all names. -/
theorem exists_cut_zero (text : List Char) (span : Span) : ∃ blanks behind,
    Cut text span 0 blanks [] [] behind := by
  have place : (readText text span).leadingSpan 0 =
      Span.point (span.start + (readText text span).leading.getD 0) := rfl
  have inFront (none : (readText text span).leading = none) : Cut text span 0 [] [] [] text := by
    refine ⟨rfl, ?_, ?_, by simp, by simp, rfl, by rw [none]; rfl⟩
    · rw [place, none]
      rfl
    · rw [place, Span.length]
      exact Nat.sub_self _
  rcases pieces_cases text with alone | ⟨piece, rest, rfl, split⟩
  · exact ⟨[], text, inFront (leading_of_alone alone)⟩
  · have leading := @leading_of_cons _ _ _ span split (pieces_ne_nil rest)
    split at leading
    next empty =>
      have blank := trim_eq_nil_iff.mp (List.isEmpty_iff.mp empty)
      have size := byteLength_separated piece []
      refine ⟨[piece], rest, by simp [ended], ?_, ?_, by simpa using blank, by simp, ?_, ?_⟩
      · rw [place, leading]
        simpa [ended, Span.point] using size.symm
      · rw [place, Span.length]
        exact Nat.sub_self _
      · rw [split, List.flatMap_cons, ofPiece_of_blank blank]
        rfl
      · rw [leading]
        rfl
    next => exact ⟨[], _, inFront leading⟩

theorem start_lt_stop {names : List WrittenName} {count : Nat} {first last : WrittenName}
    (filled : ∀ name ∈ names, name.start < name.stop)
    (ordered : names.Pairwise fun first second => first.stop ≤ second.start)
    (isFirst : names.head? = some first) (isLast : names[count]? = some last) : first.start < last.stop := by
  cases names with
  | nil => simp at isFirst
  | cons name names =>
      obtain rfl := Option.some.inj isFirst
      obtain ⟨here, filled⟩ := List.forall_mem_cons.mp filled
      cases count with
      | zero =>
          obtain rfl := Option.some.inj isLast
          exact here
      | succ count =>
          have member : last ∈ names := List.mem_of_getElem? (by simpa using isLast)
          have follows := (List.pairwise_cons.mp ordered).1 last member
          have ends := filled last member
          omega

theorem exists_cut_succ {text : List Char} {span : Span} {count : Nat}
    (fewer : count < (readText text span).names.length) : ∃ blanks lead removed behind,
      Cut text span (count + 1) blanks lead removed behind := by
  have names : (readText text span).names = namesFrom 0 (pieces text) := rfl
  rw [names] at fewer
  obtain ⟨inside, ordered⟩ := namesFrom_ordered 0 text
  obtain ⟨first, isFirst⟩ : ∃ first, (namesFrom 0 (pieces text)).head? = some first :=
    Option.isSome_iff_exists.mp (by simpa using List.ne_nil_of_length_pos (Nat.zero_lt_of_lt fewer))
  have isLast := List.getElem?_eq_getElem fewer
  have apart := start_lt_stop (fun name member => (inside name member).2.1) ordered isFirst isLast
  obtain ⟨through, behind, parts, stop, others⟩ := exists_behind isLast
  obtain ⟨blanks, lead, solid, parts', start, blankPieces, blankLead, leading⟩ := exists_ahead span isFirst
  have taken : ((namesFrom 0 (pieces text)).take (count + 1)).head? = some first ∧
      ((namesFrom 0 (pieces text)).take (count + 1)).getLast? = some (namesFrom 0 (pieces text))[count] := by
    rw [List.head?_take, List.getLast?_take, Nat.add_sub_cancel, isLast]
    simp [isFirst]
  have covered : (readText text span).leadingSpan (count + 1) = Span.between (span.start + first.start)
      (span.start + ((namesFrom 0 (pieces text))[count]).stop) := by
    rw [leadingSpan, names, taken.1, taken.2]
    rfl
  rw [← List.append_assoc] at parts'
  obtain ⟨c, more, throughEq, -⟩ := append_of_length_lt (parts'.symm.trans parts) (by omega)
  have size := congrArg byteLength throughEq
  rw [byteLength_append] at size
  refine ⟨blanks, lead, c :: more, behind, ?_, ?_, ?_, blankPieces, blankLead, others, leading⟩
  · rw [parts, throughEq]
    simp
  · rw [covered, Span.between, start, Nat.zero_add]
  · rw [covered, Span.between, Span.length]
    dsimp only
    omega

theorem exists_cut {text : List Char} {span : Span} {count : Nat}
    (fewer : count ≤ (readText text span).names.length) : ∃ blanks lead removed behind,
      Cut text span count blanks lead removed behind := by
  cases count with
  | zero =>
      obtain ⟨blanks, behind, cut⟩ := exists_cut_zero text span
      exact ⟨blanks, [], [], behind, cut⟩
  | succ count => exact exists_cut_succ fewer

end WrittenQualifier

end Requalify
