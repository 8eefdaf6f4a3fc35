import Mathlib.Data.List.Forall2
import Requalify.Proofs.Token.Chain
import Requalify.Proofs.Token.Names

/-!
The chunks of a written name chain. Gaps may stand around each name, and a separator follows every name
but the last. No gap and no name ends with a colon in front of a separator.
-/

namespace Requalify

namespace Chunk

open Piece

variable {fresh : Bool} {after : List Char}

/-- A gap is a single blank, or it begins like a comment or a directive. -/
structure IsGap (chunk : Chunk) : Prop where
  kind : chunk.kind = none
  shape : Text.isAsciiBlank chunk.first = true ∧ chunk.rest = [] ∨ chunk.first = '/' ∨
    chunk.first = '#'

theorem isGap_of_stands {chunk : Chunk} (kind : chunk.kind = none)
    (stands : chunk.StandsBefore fresh after) : chunk.IsGap := by
  obtain ⟨_, c, rest⟩ := chunk
  obtain rfl := kind
  refine ⟨rfl, ?_⟩
  rcases stands.gap_cases with blank | ⟨_, slash, -⟩ | ⟨_, slash, -⟩ | ⟨hash, -⟩
  · exact .inl blank
  · exact .inr (.inl slash)
  · exact .inr (.inl slash)
  · exact .inr (.inr hash)

theorem isGap_of_reads {chunks : List Chunk} (reads : Reads fresh after chunks) :
    ∀ chunk ∈ chunks, chunk.kind = none → chunk.IsGap := by
  intro chunk member kind
  obtain ⟨front, back, rfl⟩ := List.append_of_mem member
  exact isGap_of_stands kind (reads_append.mp reads).2.1

theorem last_of_gap {chunk : Chunk} (kind : chunk.kind = none)
    (stands : chunk.StandsBefore fresh (':' :: after)) : chunk.last ≠ ':' := by
  obtain ⟨_, c, rest⟩ := chunk
  obtain rfl := kind
  -- Only a blank and a closed comment can stand in front of a colon.
  rcases stands.gap_cases with
    ⟨isBlank, rfl⟩ | ⟨body, rfl, rfl, size⟩ | ⟨body, rfl, rfl, size⟩ | ⟨rfl, rfl, size⟩
  · rintro colon
    have same : c = ':' := colon
    rw [same] at isBlank
    exact absurd isBlank (by decide)
  · have whole : ((body ++ ':' :: after).takeWhile (· != '\n')).length = body.length := by
      rw [List.length_cons] at size
      omega
    obtain ⟨-, lineEnd⟩ := length_takeWhile_append.mp whole
    exact absurd lineEnd (by simp)
  · rw [List.length_cons, Nat.add_comm] at size
    obtain ⟨slash, -⟩ := commentLength_append size (by simp)
    simp [last, List.getLast?_cons, slash]
  · obtain ⟨atEnd | feed, -⟩ := directiveLength_append (size.trans (Nat.zero_add _).symm)
    · simp at atEnd
    · simp at feed

theorem last_of_name {chunk : Chunk} (kind : chunk.kind = some .identifier)
    (stands : chunk.StandsBefore fresh after) : chunk.last ≠ ':' := by
  obtain ⟨_, c, rest⟩ := chunk
  obtain rfl := kind
  have isName := isName_of_identifier stands
  have part : isNamePart (last ⟨some .identifier, c, rest⟩) = true := by
    refine isName.isNamePart ?_
    rw [String.toList_ofList]
    exact List.mem_of_getLast? (text_getLast? ⟨some .identifier, c, rest⟩)
  intro colon
  rw [colon] at part
  exact absurd part (by decide)

theorem getLast?_ne_colon {chunks : List Chunk} (reads : Reads fresh (':' :: after) chunks)
    (kinds : ∀ chunk ∈ chunks, chunk.kind = none ∨ chunk.kind = some .identifier) :
    (flatten chunks).getLast? ≠ some ':' := by
  rcases List.eq_nil_or_concat chunks with rfl | ⟨front, chunk, rfl⟩
  · simp
  · rw [List.concat_eq_append] at reads kinds ⊢
    have stands : chunk.StandsBefore _ (':' :: after) := (reads_append.mp reads).2.1
    have lastEq : (flatten (front ++ [chunk])).getLast? = some chunk.last := by
      simp [text_getLast?]
    rw [lastEq]
    rcases kinds chunk (by simp) with gap | name
    · exact fun same => last_of_gap gap stands (Option.some.inj same)
    · exact fun same => last_of_name name stands (Option.some.inj same)

/-- The first token stands behind gaps. -/
theorem exists_first {offset : Nat} {chunks : List Chunk} {token : Token} {more : List Token}
    (tokensEq : tokens offset chunks = token :: more) :
    ∃ gaps chunk back, chunks = gaps ++ chunk :: back ∧ (∀ gap ∈ gaps, gap.kind = none) ∧
      chunk.kind = some token.kind ∧ chunk.text = token.text.toList ∧
      token.start = offset + Text.byteLength (flatten gaps) ∧ tokens token.stop back = more := by
  induction chunks generalizing offset with
  | nil => simp [tokens] at tokensEq
  | cons chunk chunks ih =>
      cases kind : chunk.kind with
      | none =>
          rw [tokens, kind] at tokensEq
          obtain ⟨gaps, first, back, rfl, gapsKind, firstKind, text, start, rest⟩ := ih tokensEq
          refine ⟨chunk :: gaps, first, back, rfl, List.forall_mem_cons.mpr ⟨kind, gapsKind⟩, firstKind,
            text, ?_, rest⟩
          rw [start, flatten_cons, Text.byteLength_append, Nat.add_assoc]
      | some kind' =>
          rw [tokens, kind] at tokensEq
          obtain ⟨rfl, rfl⟩ := List.cons.inj tokensEq
          refine ⟨[], chunk, chunks, rfl, by simp, kind, String.toList_ofList.symm, rfl, ?_⟩
          simp [Token.stop]

theorem exists_split {offset : Nat} {chunks : List Chunk} {front more : List Token} {token : Token}
    (tokensEq : tokens offset chunks = front ++ token :: more) :
    ∃ before chunk back, chunks = before ++ chunk :: back ∧ chunk.kind = some token.kind ∧
      chunk.text = token.text.toList ∧ token.start = offset + Text.byteLength (flatten before) ∧
      tokens token.stop back = more := by
  induction front generalizing offset chunks with
  | nil =>
      obtain ⟨gaps, chunk, back, parts, -, rest⟩ := exists_first tokensEq
      exact ⟨gaps, chunk, back, parts, rest⟩
  | cons first front ih =>
      obtain ⟨gaps, passed, others, rfl, -, -, passedText, passedStart, rest⟩ := exists_first tokensEq
      obtain ⟨before, chunk, back, rfl, kind, lexeme, start, more⟩ := ih rest
      refine ⟨gaps ++ passed :: before, chunk, back, by simp, kind, lexeme, ?_, more⟩
      rw [start, Token.stop, passedStart, ← passedText]
      simp only [flatten_append, flatten_cons, Text.byteLength_append]
      omega

theorem kind_of_isIdentifier {chunk : Chunk} {token : Token} (kind : chunk.kind = some token.kind)
    (isName : token.isIdentifier = true) : chunk.kind = some .identifier := by
  rw [kind, Token.kind_of_isIdentifier isName]

theorem eq_separator_of_isScope {chunk : Chunk} {token : Token} (kind : chunk.kind = some token.kind)
    (isScope : token.isScope = true) (stands : chunk.StandsBefore fresh after) :
    chunk = separator :=
  eq_separator (kind.trans (congrArg some (Token.kind_of_isScope isScope))) stands

theorem tokens_cons {chunk : Chunk} {token : Token} (kind : chunk.kind = some token.kind)
    (lexeme : chunk.text = token.text.toList) (back : List Chunk) :
    tokens token.start (chunk :: back) = token :: tokens token.stop back := by
  rw [tokens, kind, lexeme, Token.stop]
  simp

end Chunk

/-- A name of a chain with the gaps in front of it and behind it; a separator follows. -/
structure Segment where
  before : List Chunk
  name : Chunk
  behind : List Chunk

namespace Segment

open Chunk

/-- The text up to the separator. -/
def piece (segment : Segment) : List Char :=
  flatten (segment.before ++ segment.name :: segment.behind)

def chunks (segment : Segment) : List Chunk :=
  segment.before ++ segment.name :: (segment.behind ++ [separator])

theorem flatten_chunks (segment : Segment) :
    flatten segment.chunks = segment.piece ++ [':', ':'] := by
  simp [chunks, piece, separator, text]

structure Valid (segment : Segment) (name : Token) : Prop where
  before : ∀ gap ∈ segment.before, gap.IsGap
  kind : segment.name.kind = some .identifier
  text : segment.name.text = name.text.toList
  behind : ∀ gap ∈ segment.behind, gap.IsGap
  isName : IsName name.text
  apart : segment.piece.getLast? ≠ some ':'

end Segment

open Chunk in
/-- The chunks of one name and of the separator behind it. -/
theorem exists_segment {fresh : Bool} {after : List Char} {offset : Nat} {chunks : List Chunk}
    {name colons : Token} {more : List Token} (isName : name.isIdentifier = true)
    (isScope : colons.isScope = true) (reads : Reads fresh after chunks)
    (tokensEq : tokens offset chunks = name :: colons :: more) :
    ∃ segment rest, chunks = Segment.chunks segment ++ rest ∧ segment.Valid name ∧
      offset + Text.byteLength (flatten segment.chunks) = colons.stop ∧
      tokens colons.stop rest = more := by
  obtain ⟨before, first, rest, rfl, beforeGaps, firstKind, firstText, firstStart, restTokens⟩ :=
    exists_first tokensEq
  obtain ⟨behind, second, rest, rfl, behindGaps, secondKind, secondText, secondStart, othersTokens⟩ :=
    exists_first restTokens
  have gaps := isGap_of_reads reads
  have parts : before ++ first :: (behind ++ second :: rest) =
      (before ++ first :: behind) ++ second :: rest := by simp
  have isFirst := kind_of_isIdentifier firstKind isName
  have stands : first.StandsBefore _ _ := (reads_append.mp reads).2.1
  rw [parts, reads_append] at reads
  obtain ⟨frontReads, secondStands, -⟩ := reads
  obtain rfl := eq_separator_of_isScope secondKind isScope secondStands
  refine ⟨⟨before, first, behind⟩, rest, by simp [Segment.chunks], ?_, ?_, othersTokens⟩
  · refine ⟨fun gap member => gaps gap (by simp [member]) (beforeGaps gap member), isFirst, firstText,
      fun gap member => gaps gap (by simp [member]) (behindGaps gap member),
      isName_of_text isFirst firstText stands, ?_⟩
    refine getLast?_ne_colon frontReads fun chunk member => ?_
    rcases List.mem_append.mp member with inBefore | inRest
    · exact .inl (beforeGaps chunk inBefore)
    · rcases List.mem_cons.mp inRest with rfl | inBehind
      · exact .inr isFirst
      · exact .inl (behindGaps chunk inBehind)
  · rw [Token.stop, secondStart, Token.stop, firstStart, ← secondText, ← firstText]
    simp only [Segment.chunks, flatten_append, flatten_cons, flatten_nil, Text.byteLength_append,
      Text.byteLength_nil]
    omega

open Chunk in
/-- The chunks of names and separators. -/
theorem exists_segments {fresh : Bool} {after : List Char} {offset : Nat} {chunks : List Chunk}
    {pairs : List (Token × Token)} {more : List Token}
    (valid : ∀ pair ∈ pairs, pair.1.isIdentifier = true ∧ pair.2.isScope = true)
    (reads : Reads fresh after chunks)
    (tokensEq : tokens offset chunks = (pairs.flatMap fun pair => [pair.1, pair.2]) ++ more) :
    ∃ segments rest, chunks = segments.flatMap Segment.chunks ++ rest ∧
      List.Forall₂ Segment.Valid segments (pairs.map (·.1)) ∧
      (∀ passed left, pairs = passed ++ left →
        offset + Text.byteLength (flatten ((segments.take passed.length).flatMap Segment.chunks)) =
          (passed.getLast?.map (·.2.stop)).getD offset) ∧
      tokens ((pairs.getLast?.map (·.2.stop)).getD offset) rest = more := by
  induction pairs generalizing fresh offset chunks with
  | nil =>
      refine ⟨[], chunks, rfl, .nil, fun passed left parts => ?_, tokensEq⟩
      obtain ⟨rfl, rfl⟩ := List.append_eq_nil_iff.mp parts.symm
      simp
  | cons pair pairs ih =>
      obtain ⟨name, colons⟩ := pair
      obtain ⟨⟨isName, isScope⟩, valid⟩ := List.forall_mem_cons.mp valid
      obtain ⟨segment, rest, rfl, isValid, place, restTokens⟩ :=
        exists_segment isName isScope reads tokensEq
      obtain ⟨segments, left, rfl, areValid, sizes, more⟩ :=
        ih valid (reads_append.mp reads).2 restTokens
      refine ⟨segment :: segments, left, by simp, .cons isValid areValid, ?_, ?_⟩
      · intro passed others parts
        cases passed with
        | nil => simp
        | cons pair passed =>
            obtain ⟨rfl, parts'⟩ := List.cons.inj parts
            rw [List.length_cons, List.take_succ_cons, List.flatMap_cons, flatten_append,
              Text.byteLength_append, ← Nat.add_assoc, place, sizes passed others parts']
            cases passed with
            | nil => rfl
            | cons pair pairs => simp [List.getLast?_cons]
      · rw [← more]
        cases pairs with
        | nil => rfl
        | cons pair pairs => simp [List.getLast?_cons]

open Chunk in
/-- The chunks of names and separators in front of a last name. -/
theorem exists_names {fresh : Bool} {after : List Char} {offset : Nat} {chunks : List Chunk}
    {pairs : List (Token × Token)} {last : Token} {behind : List Token}
    (valid : ∀ pair ∈ pairs, pair.1.isIdentifier = true ∧ pair.2.isScope = true)
    (isName : last.isIdentifier = true) (reads : Reads fresh after chunks)
    (tokensEq : tokens offset chunks =
      (pairs.flatMap fun pair => [pair.1, pair.2]) ++ last :: behind) :
    ∃ segments gaps final back, chunks = segments.flatMap Segment.chunks ++ (gaps ++ [final]) ++ back ∧
      List.Forall₂ Segment.Valid segments (pairs.map (·.1)) ∧
      (∀ passed left, pairs = passed ++ left →
        offset + Text.byteLength (flatten ((segments.take passed.length).flatMap Segment.chunks)) =
          (passed.getLast?.map (·.2.stop)).getD offset) ∧
      (∀ gap ∈ gaps, gap.kind = none) ∧ final.kind = some .identifier ∧
      final.text = last.text.toList ∧
      offset + Text.byteLength (flatten (segments.flatMap Segment.chunks ++ (gaps ++ [final]))) =
        last.stop ∧
      (tokens offset (segments.flatMap Segment.chunks ++ (gaps ++ [final]))).head? =
        some ((pairs.head?.map (·.1)).getD last) := by
  obtain ⟨segments, rest, rfl, areValid, sizes, restTokens⟩ := exists_segments valid reads tokensEq
  obtain ⟨gaps, final, back, rfl, gapKinds, finalKind, finalText, finalStart, -⟩ :=
    exists_first restTokens
  have identifier := kind_of_isIdentifier finalKind isName
  have whole : segments.flatMap Segment.chunks ++ gaps ++ final :: back =
      segments.flatMap Segment.chunks ++ (gaps ++ [final]) ++ back := by simp
  have size : offset + Text.byteLength (flatten (segments.flatMap Segment.chunks)) =
      (pairs.getLast?.map (·.2.stop)).getD offset := by
    have length : segments.length = pairs.length := by simpa using areValid.length_eq
    have all := sizes pairs [] (by simp)
    rwa [← length, List.take_length] at all
  refine ⟨segments, gaps, final, back, by simp, areValid, sizes, gapKinds, identifier,
    finalText, ?_, ?_⟩
  · rw [Token.stop, finalStart, ← size, ← finalText]
    simp only [flatten_append, flatten_cons, flatten_nil, Text.byteLength_append, List.append_nil]
    omega
  · rw [← List.append_assoc, whole, tokens_append] at tokensEq
    have nonempty : tokens offset (segments.flatMap Segment.chunks ++ (gaps ++ [final])) ≠ [] := by
      rw [← List.append_assoc, tokens_append]
      simp [tokens, identifier]
    rw [← List.head?_append_of_ne_nil _ nonempty, tokensEq]
    cases pairs with
    | nil => rfl
    | cons pair pairs => rfl

/-- How a chain is written: a leading separator, its names with a separator behind each, and the last
name behind gaps. -/
structure NameChain.Written (chain : NameChain) (whole front lead : List Chunk)
    (segments : List Segment) (gaps : List Chunk) (last : Chunk) (back : List Chunk) : Prop where
  parts : whole = front ++ (lead ++ (segments.flatMap Segment.chunks ++ (gaps ++ [last])) ++ back)
  start : Text.byteLength (Chunk.flatten front) = chain.start
  leads : chain.leading = none ∧ lead = [] ∨ chain.leading.isSome = true ∧ lead = [Chunk.separator]
  valid : ∃ names, List.Forall₂ Segment.Valid segments names ∧
    names.map (·.text) = chain.qualifiers.map (·.1.text)
  stops : ∀ passed left, chain.qualifiers = passed ++ left →
    Text.byteLength (Chunk.flatten (front ++ (lead ++
        (segments.take passed.length).flatMap Segment.chunks))) = chain.stopBehind passed
  gapKinds : ∀ gap ∈ gaps, gap.kind = none
  lastKind : last.kind = some .identifier
  lastText : last.text = chain.last.text.toList
  stop : Text.byteLength (Chunk.flatten (front ++ (lead ++ (segments.flatMap Segment.chunks ++
    (gaps ++ [last]))))) = chain.stop
  first : (Chunk.tokens (Text.byteLength (Chunk.flatten (front ++ lead)))
    (segments.flatMap Segment.chunks ++ (gaps ++ [last]))).head?.map Token.start =
      some chain.first.span.start
  opens : lead = [] → (Chunk.flatten (segments.flatMap Segment.chunks ++ (gaps ++ [last]))).head?.any
    Piece.isNameStart = true

namespace NameChain

open Chunk

theorem Layout.first_chain (layout : Layout) :
    layout.chain.first = ((layout.pairs.head?.map (·.1)).getD layout.last).name := by
  obtain ⟨leading, pairs, last⟩ := layout
  cases pairs with
  | nil => rfl
  | cons pair pairs => rfl

/-- Sizes behind the names of a layout are sizes behind the names of its chain. -/
theorem Layout.sizes_chain (layout : Layout) {offset : Nat} {segments : List Segment}
    (sizes : ∀ passed left, layout.pairs = passed ++ left →
      offset + Text.byteLength (flatten ((segments.take passed.length).flatMap Segment.chunks)) =
        (passed.getLast?.map (·.2.stop)).getD offset)
    {passed left : List (NameToken × Span)} (parts : layout.chain.qualifiers = passed ++ left) :
    offset + Text.byteLength (flatten ((segments.take passed.length).flatMap Segment.chunks)) =
      (passed.getLast?.map (·.2.stop)).getD offset := by
  obtain ⟨one, other, pairs, rfl, rfl⟩ := List.map_eq_append_iff.mp parts
  rw [List.length_map, sizes one other pairs, List.getLast?_map, Option.map_map]
  rfl

section Written

variable {front behind passed : List Token} {pairs : List (Token × Token)} {last : Token}
  {whole : List Chunk}

theorem exists_written_leading {colons : Token}
    (valid : Layout.Valid ⟨some colons, pairs, last⟩) (reads : Reads true [] whole)
    (tokensEq : tokens 0 whole =
      passed ++ colons :: ((pairs.flatMap fun pair => [pair.1, pair.2]) ++ last :: behind)) :
    ∃ before lead segments gaps final back, (Layout.chain ⟨some colons, pairs, last⟩).Written whole
      before lead segments gaps final back := by
  have isFirst := Layout.first_chain ⟨some colons, pairs, last⟩
  obtain ⟨before, first, rest, rfl, kind, lexeme, start, restTokens⟩ := exists_split tokensEq
  obtain ⟨-, stands, restReads⟩ := reads_append.mp reads
  obtain rfl := eq_separator_of_isScope kind (valid.lead colons rfl) stands
  rw [Nat.zero_add] at start
  have place : Text.byteLength (flatten (before ++ [separator])) = colons.stop := by
    rw [Token.stop, start, ← lexeme]
    simp
  obtain ⟨segments, gaps, final, back, rfl, areValid, sizes, gapKinds, finalKind, finalText, stop,
    head⟩ := exists_names valid.pairs valid.last restReads restTokens
  refine ⟨before, [separator], segments, gaps, final, back, by simp, start.symm, .inr ⟨rfl, rfl⟩,
    ⟨_, areValid, by simp [Layout.chain, Token.name]⟩, ?_, gapKinds, finalKind, finalText, ?_, ?_,
    by simp⟩
  · intro passed left parts
    rw [← List.append_assoc, flatten_append, Text.byteLength_append, place,
      Layout.sizes_chain ⟨some colons, pairs, last⟩ sizes parts]
    rfl
  · rw [← List.append_assoc, flatten_append, Text.byteLength_append, place, stop]
    rfl
  · rw [place, head, isFirst]
    rfl

theorem exists_written_plain (valid : Layout.Valid ⟨none, pairs, last⟩) (reads : Reads true [] whole)
    (tokensEq : tokens 0 whole =
      passed ++ ((pairs.flatMap fun pair => [pair.1, pair.2]) ++ last :: behind)) :
    ∃ before lead segments gaps final back, (Layout.chain ⟨none, pairs, last⟩).Written whole before
      lead segments gaps final back := by
  have isFirst := Layout.first_chain ⟨none, pairs, last⟩
  obtain ⟨first, more, namesEq, firstName, firstStart, headEq⟩ : ∃ first more,
      (pairs.flatMap fun pair => [pair.1, pair.2]) ++ last :: behind = first :: more ∧
      first.isIdentifier = true ∧ first.start = (Layout.chain ⟨none, pairs, last⟩).start ∧
      (pairs.head?.map (·.1)).getD last = first := by
    cases pairs with
    | nil => exact ⟨last, behind, rfl, valid.last, rfl, rfl⟩
    | cons pair pairs => exact ⟨pair.1, _, rfl, (valid.pairs pair (by simp)).1, rfl, rfl⟩
  rw [namesEq] at tokensEq
  obtain ⟨before, chunk, rest, rfl, kind, lexeme, start, restTokens⟩ := exists_split tokensEq
  obtain ⟨-, chunkReads⟩ := reads_append.mp reads
  have identifier := kind_of_isIdentifier kind firstName
  have opens : Piece.isNameStart chunk.first = true := by
    have stands := chunkReads.1
    rw [StandsBefore, identifier] at stands
    exact Piece.isNameStart_of_word (.inl rfl) stands
  rw [Nat.zero_add] at start
  have namesTokens : tokens first.start (chunk :: rest) =
      (pairs.flatMap fun pair => [pair.1, pair.2]) ++ last :: behind := by
    rw [tokens_cons kind lexeme, restTokens, namesEq]
  obtain ⟨segments, gaps, final, back, whole, areValid, sizes, gapKinds, finalKind, finalText, stop,
    head⟩ := exists_names valid.pairs valid.last chunkReads namesTokens
  rw [whole]
  refine ⟨before, [], segments, gaps, final, back, by simp, start.symm.trans firstStart,
    .inl ⟨rfl, rfl⟩, ⟨_, areValid, by simp [Layout.chain, Token.name]⟩, ?_, gapKinds, finalKind,
    finalText, ?_, ?_, fun _ => ?_⟩
  · intro passed left parts
    rw [List.nil_append, flatten_append, Text.byteLength_append, ← start,
      Layout.sizes_chain ⟨none, pairs, last⟩ sizes parts, firstStart]
    rfl
  · rw [List.nil_append, flatten_append, Text.byteLength_append, ← start, stop]
    rfl
  · rw [List.append_nil, ← start, head, isFirst]
    rfl
  · cases names : segments.flatMap Segment.chunks ++ (gaps ++ [final]) with
    | nil => simp at names
    | cons other others =>
        rw [names] at whole
        obtain ⟨rfl, -⟩ := List.cons.inj whole
        simpa [text] using opens

theorem exists_written {chain : NameChain} (reads : Reads true [] whole)
    (spelled : chain.Spelled front last) (tokensEq : tokens 0 whole = passed ++ (front ++ last :: behind)) :
    ∃ before lead segments gaps final back,
      chain.Written whole before lead segments gaps final back := by
  obtain ⟨⟨leading, pairs, last⟩, valid, rfl, rfl, rfl⟩ := spelled.layout
  cases leading with
  | some colons => exact exists_written_leading valid reads tokensEq
  | none => exact exists_written_plain valid reads tokensEq

end Written

end NameChain

end Requalify
