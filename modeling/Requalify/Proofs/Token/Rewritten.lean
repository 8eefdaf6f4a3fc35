import Requalify.Proofs.Patch.Rewriting
import Requalify.Proofs.Token.Edited

/-!
The tokens of a rewritten text. If the patches of a text lie in parts of it that are made of whole chunks,
and each part as it is rewritten goes together with what stands around it, then outside the parts the
tokens stay as they are.
-/

namespace Requalify

/-- A token without its place. -/
def Token.lexeme (token : Token) : TokenKind × String :=
  (token.kind, token.text)

namespace Chunk

def lexeme? (chunk : Chunk) : Option (TokenKind × String) :=
  chunk.kind.map fun kind => (kind, String.ofList chunk.text)

theorem tokens_map_lexeme (offset : Nat) (chunks : List Chunk) :
    (tokens offset chunks).map Token.lexeme = chunks.filterMap lexeme? := by
  induction chunks generalizing offset with
  | nil => rfl
  | cons chunk chunks ih =>
      rw [tokens, List.map_append, ih, List.filterMap_cons]
      cases kind : chunk.kind with
      | none => simp [lexeme?, kind]
      | some kind' => simp [lexeme?, kind, Token.lexeme]

theorem byteLength_text_pos (chunk : Chunk) : 0 < Text.byteLength chunk.text := by
  have positive := chunk.first.utf8Size_pos
  rw [text, Text.byteLength_cons]
  omega

/-- What has no kind leaves no token. -/
theorem tokens_of_gaps {chunks : List Chunk} (gaps : ∀ chunk ∈ chunks, chunk.kind = none)
    (offset : Nat) : tokens offset chunks = [] := by
  induction chunks generalizing offset with
  | nil => rfl
  | cons chunk chunks ih =>
      obtain ⟨gap, gaps⟩ := List.forall_mem_cons.mp gaps
      rw [tokens, gap, ih gaps]
      rfl

theorem lexemes_of_gaps {chunks : List Chunk} (gaps : ∀ chunk ∈ chunks, chunk.kind = none) :
    chunks.filterMap lexeme? = [] :=
  List.filterMap_eq_nil_iff.mpr fun chunk member => by rw [lexeme?, gaps chunk member, Option.map_none]

theorem start_of_mem_tokens {offset : Nat} {chunks : List Chunk} {token : Token}
    (member : token ∈ tokens offset chunks) :
    offset ≤ token.start ∧ token.start < offset + Text.byteLength (flatten chunks) := by
  obtain ⟨front, chunk, back, rfl, -, -, start⟩ := exists_chunk member
  have positive := chunk.byteLength_text_pos
  simp only [flatten_append, flatten_cons, Text.byteLength_append]
  omega

/-- Of two places where chunks end, the first one is not inside a chunk of the other. -/
theorem append_of_byteLength_le {front back front' back' : List Chunk}
    (same : front ++ back = front' ++ back')
    (ordered : Text.byteLength (flatten front) ≤ Text.byteLength (flatten front')) :
    ∃ middle, front' = front ++ middle ∧ back = middle ++ back' := by
  rcases List.append_eq_append_iff.mp same with ⟨middle, longer, rest⟩ | ⟨middle, longer, rest⟩
  · exact ⟨middle, longer, rest⟩
  · cases middle with
    | nil => exact ⟨[], by simpa using longer.symm, by simpa using rest.symm⟩
    | cons chunk middle =>
        have positive := chunk.byteLength_text_pos
        rw [longer, flatten_append, Text.byteLength_append, flatten_cons,
          Text.byteLength_append] at ordered
        omega

theorem append_inj_of_byteLength {front back front' back' : List Chunk}
    (same : front ++ back = front' ++ back')
    (length : Text.byteLength (flatten front) = Text.byteLength (flatten front')) :
    front = front' ∧ back = back' := by
  obtain ⟨middle, rfl, rfl⟩ := append_of_byteLength_le same (Nat.le_of_eq length)
  cases middle with
  | nil => simp
  | cons chunk middle =>
      have positive := chunk.byteLength_text_pos
      rw [flatten_append, Text.byteLength_append, flatten_cons, Text.byteLength_append] at length
      omega

/-- The chunks from one token to a later one. -/
theorem exists_stretch {whole : List Chunk} {first last : Token} (isFirst : first ∈ tokens 0 whole)
    (isLast : last ∈ tokens 0 whole) (before : first.stop ≤ last.start) :
    ∃ front opening middle closing back,
      whole = front ++ (opening :: (middle ++ [closing]) ++ back) ∧
      opening.kind = some first.kind ∧ closing.text = last.text.toList ∧
      Text.byteLength (flatten front) = first.start ∧
      Text.byteLength (flatten (front ++ opening :: (middle ++ [closing]))) = last.stop := by
  obtain ⟨front, opening, rest, whole', firstKind, firstText, firstStart⟩ := exists_chunk isFirst
  obtain ⟨front', closing, back, whole'', -, lastText, lastStart⟩ := exists_chunk isLast
  have firstStop : Text.byteLength (flatten (front ++ [opening])) = first.stop := by
    simp [Token.stop, firstText, firstStart]
  have lastStop : Text.byteLength (flatten (front' ++ [closing])) = last.stop := by
    simp [Token.stop, lastText, lastStart]
  have split : front ++ [opening] ++ rest = front' ++ closing :: back := by
    rw [← whole'', whole', List.append_assoc]
    rfl
  rw [Nat.zero_add] at firstStart lastStart
  obtain ⟨middle, rfl, rfl⟩ := append_of_byteLength_le split
    (by rw [firstStop, ← lastStart]; exact before)
  refine ⟨front, opening, middle, closing, back, by simp [whole'], firstKind, lastText,
    firstStart.symm, ?_⟩
  rw [← lastStop]
  simp

theorem byteLength_flatten_pos {chunks : List Chunk} (nonempty : chunks ≠ []) :
    0 < Text.byteLength (flatten chunks) := by
  cases chunks with
  | nil => exact absurd rfl nonempty
  | cons chunk chunks =>
      have positive := chunk.byteLength_text_pos
      rw [flatten_cons, Text.byteLength_append]
      omega

/-- A part of a text that patches rewrite: the chunks `old` between `front` and `back` become `new`, and
`replace` tells what becomes of each of their tokens. -/
structure Rewrites (patches : List Patch) (replace : Token → List (TokenKind × String))
    (front old new back : List Chunk) : Prop where
  nonempty : old ≠ []
  text : Patch.rewriteFrom patches (Text.byteLength (flatten front)) (flatten old) = flatten new
  lexemes : (tokens (Text.byteLength (flatten front)) old).flatMap replace = new.filterMap lexeme?
  edited : ∀ result,
    flatten result =
      Patch.rewriteFrom patches (Text.byteLength (flatten (front ++ old))) (flatten back) →
    Edited (flatten (front ++ old)).getLast? back result →
    Edited (flatten front).getLast? (old ++ back) (new ++ result)

theorem edited_of_border {front old new back result : List Chunk} {behind : List Char}
    (border : Border (flatten front).getLast? old new (flatten back) behind)
    (text : flatten result = behind) (edited : Edited (flatten (front ++ old)).getLast? back result) :
    Edited (flatten front).getLast? (old ++ back) (new ++ result) := by
  rw [flatten_append, List.getLast?_append] at edited
  exact .replace (text ▸ border) edited

/-- The patches make `result` of the chunks `rest` behind `front`. -/
structure TurnsInto (patches : List Patch) (replace : Token → List (TokenKind × String))
    (front rest result : List Chunk) : Prop where
  edited : Edited (flatten front).getLast? rest result
  text : flatten result = Patch.rewriteFrom patches (Text.byteLength (flatten front)) (flatten rest)
  lexemes : (tokens (Text.byteLength (flatten front)) rest).flatMap replace = result.filterMap lexeme?

section TurnsInto

variable {patches : List Patch} {replace : Token → List (TokenKind × String)}
  {front old new rest result : List Chunk} {chunk : Chunk}

theorem Rewrites.turnsInto (rewrites : Rewrites patches replace front old new rest)
    (behind : TurnsInto patches replace (front ++ old) rest result) :
    TurnsInto patches replace front (old ++ rest) (new ++ result) := by
  refine ⟨rewrites.edited result behind.text behind.edited, ?_, ?_⟩
  · rw [flatten_append, flatten_append, Patch.rewriteFrom_append, rewrites.text, behind.text,
      flatten_append, Text.byteLength_append]
  · have lexemes := behind.lexemes
    rw [flatten_append, Text.byteLength_append] at lexemes
    rw [tokens_append, List.flatMap_append, List.filterMap_append, rewrites.lexemes, lexemes]

/-- A chunk is kept where no patch has an effect. -/
theorem TurnsInto.keep (behind : TurnsInto patches replace (front ++ [chunk]) rest result)
    (free : ∀ place, Text.byteLength (flatten front) ≤ place →
      place < Text.byteLength (flatten front) + Text.byteLength chunk.text →
      Patch.insertedAt patches place = [] ∧ Patch.covers patches place = false)
    (kept : ∀ kind, chunk.kind = some kind →
      replace ⟨kind, String.ofList chunk.text, Text.byteLength (flatten front)⟩ =
        [(kind, String.ofList chunk.text)]) :
    TurnsInto patches replace front (chunk :: rest) (chunk :: result) := by
  obtain ⟨edited, text, lexemes⟩ := behind
  have size : Text.byteLength (flatten (front ++ [chunk])) =
      Text.byteLength (flatten front) + Text.byteLength chunk.text := by
    simp
  rw [size] at text lexemes
  refine ⟨.keep ?_, ?_, ?_⟩
  · simpa [text_getLast?] using edited
  · rw [flatten_cons, flatten_cons, Patch.rewriteFrom_append, text, Patch.rewriteFrom_kept free]
  · rw [tokens, List.flatMap_append, lexemes, List.filterMap_cons]
    cases isKind : chunk.kind with
    | none => simp [lexeme?, isKind]
    | some kind => simp [lexeme?, isKind, kept kind isKind]

end TurnsInto

section Parts

variable {whole : List Chunk} {patches : List Patch} {replace : Token → List (TokenKind × String)}
  {spans : List Span}
  (parts : ∀ span ∈ spans, ∃ front old new back, whole = front ++ (old ++ back) ∧
    Text.byteLength (flatten front) = span.start ∧
    Text.byteLength (flatten (front ++ old)) = span.stop ∧
    Rewrites patches replace front old new back)
  (disjoint : spans.Pairwise fun left right => ¬left.Overlaps right)
  (untouched : ∀ place, (∀ span ∈ spans, ¬span.Contains place) →
    Patch.insertedAt patches place = [] ∧ Patch.covers patches place = false)
  (plain : ∀ token ∈ tokens 0 whole, (∀ span ∈ spans, ¬span.Contains token.start) →
    replace token = [token.lexeme])

include parts disjoint untouched plain

omit untouched plain in
theorem outside_of_part {span : Span} {front old : List Chunk} (member : span ∈ spans)
    (start : Text.byteLength (flatten front) = span.start)
    (stop : Text.byteLength (flatten (front ++ old)) = span.stop) (nonempty : old ≠ [])
    (outside : ∀ span ∈ spans, span.stop ≤ Text.byteLength (flatten front) ∨
      Text.byteLength (flatten front) ≤ span.start) :
    ∀ span ∈ spans, span.stop ≤ Text.byteLength (flatten (front ++ old)) ∨
      Text.byteLength (flatten (front ++ old)) ≤ span.start := by
  have positive := byteLength_flatten_pos nonempty
  have size : Text.byteLength (flatten (front ++ old)) =
      Text.byteLength (flatten front) + Text.byteLength (flatten old) := by
    rw [flatten_append, Text.byteLength_append]
  intro other otherMember
  by_cases same : other = span
  · subst same
    exact .inl (Nat.le_of_eq stop.symm)
  · rcases outside other otherMember with before | behind
    · exact .inl (by omega)
    · have : Std.Symm fun left right : Span => ¬left.Overlaps right :=
        ⟨fun _ _ apart overlap => apart overlap.symm⟩
      have apart := disjoint.forall otherMember member same
      obtain ⟨front', old', new', back', -, start', stop', rewrites⟩ := parts other otherMember
      have positive' := byteLength_flatten_pos rewrites.nonempty
      rw [flatten_append, Text.byteLength_append] at stop'
      simp only [Span.Overlaps] at apart
      exact .inr (by omega)

omit disjoint untouched plain in
/-- A part does not begin inside a chunk. -/
theorem outside_of_chunk {front rest : List Chunk} {chunk : Chunk}
    (place : whole = front ++ chunk :: rest)
    (outside : ∀ span ∈ spans, span.stop ≤ Text.byteLength (flatten front) ∨
      Text.byteLength (flatten front) ≤ span.start)
    (elsewhere : ∀ span ∈ spans, span.start ≠ Text.byteLength (flatten front)) :
    ∀ span ∈ spans, span.stop ≤ Text.byteLength (flatten front) ∨
      Text.byteLength (flatten (front ++ [chunk])) ≤ span.start := by
  intro span member
  refine (outside span member).imp_right fun behind => ?_
  obtain ⟨front', old, new, back, whole', start, -⟩ := parts span member
  obtain ⟨middle, rfl, parts'⟩ := append_of_byteLength_le (place.symm.trans whole') (start ▸ behind)
  cases middle with
  | nil => exact absurd (by simpa using start.symm) (elsewhere span member)
  | cons first middle =>
      obtain ⟨rfl, -⟩ := List.cons.inj parts'
      rw [← start]
      simp

/-- What patches make of the rest of a text: chunks that are kept, and the new ones of the parts. -/
theorem exists_turnsInto {front rest : List Chunk} (place : whole = front ++ rest)
    (outside : ∀ span ∈ spans, span.stop ≤ Text.byteLength (flatten front) ∨
      Text.byteLength (flatten front) ≤ span.start) :
    ∃ result, TurnsInto patches replace front rest result := by
  generalize sizeEq : rest.length = size
  induction size using Nat.strongRecOn generalizing front rest with
  | ind size ih =>
      by_cases here : ∃ span ∈ spans, span.start = Text.byteLength (flatten front)
      · obtain ⟨span, member, startHere⟩ := here
        obtain ⟨front', old, new, back, whole', start, stop, rewrites⟩ := parts span member
        obtain ⟨rfl, rfl⟩ := append_inj_of_byteLength (place.symm.trans whole')
          (startHere.symm.trans start.symm)
        have shorter : back.length < size := by
          have positive := List.length_pos_iff.mpr rewrites.nonempty
          rw [← sizeEq, List.length_append]
          omega
        have place' : whole = (front ++ old) ++ back := by rw [place, List.append_assoc]
        obtain ⟨result, behind⟩ := ih _ shorter place'
          (outside_of_part parts disjoint member start stop rewrites.nonempty outside) rfl
        exact ⟨new ++ result, rewrites.turnsInto behind⟩
      · have elsewhere : ∀ span ∈ spans, span.start ≠ Text.byteLength (flatten front) :=
          fun span member start => here ⟨span, member, start⟩
        cases rest with
        | nil => exact ⟨[], .nil _, rfl, rfl⟩
        | cons chunk rest =>
            have apart := outside_of_chunk parts place outside elsewhere
            have size' : Text.byteLength (flatten (front ++ [chunk])) =
                Text.byteLength (flatten front) + Text.byteLength chunk.text := by
              simp
            have notInside (place : Nat) (from_ : Text.byteLength (flatten front) ≤ place)
                (upTo : place < Text.byteLength (flatten front) + Text.byteLength chunk.text) :
                ∀ span ∈ spans, ¬span.Contains place := by
              intro span member inside
              have here := apart span member
              simp only [Span.Contains] at inside
              omega
            have place' : whole = (front ++ [chunk]) ++ rest := by
              rw [place, List.append_assoc]
              rfl
            obtain ⟨result, behind⟩ := ih rest.length (by simp [← sizeEq]) place'
              (fun span member => (apart span member).imp_left fun before => by omega) rfl
            refine ⟨chunk :: result, behind.keep (fun place from_ upTo =>
              untouched place (notInside place from_ upTo)) fun kind isKind => ?_⟩
            have known : ⟨kind, String.ofList chunk.text, Text.byteLength (flatten front)⟩ ∈
                tokens 0 whole := by
              rw [place, tokens_append, tokens, Nat.zero_add]
              simp [isKind]
            exact plain _ known (notInside _ (Nat.le_refl _)
              (Nat.lt_add_of_pos_right chunk.byteLength_text_pos))

/-- The tokens of a rewritten text are those of the text, outside the parts. -/
theorem tokenize_rewrite (reads : Reads true [] whole) :
    (tokenize (String.ofList (Patch.rewrite patches (flatten whole)))).map Token.lexeme =
      (tokens 0 whole).flatMap replace := by
  obtain ⟨result, edited, text, lexemes⟩ :=
    exists_turnsInto parts disjoint untouched plain (List.nil_append whole).symm fun span member =>
      .inr (Nat.zero_le _)
  have atEnd : Patch.insertedAt patches (Text.byteLength (flatten whole)) = [] := by
    refine (untouched _ fun span member inside => ?_).1
    obtain ⟨front, old, new, back, whole', -, stop, -⟩ := parts span member
    have bound := congrArg (fun chunks => Text.byteLength (flatten chunks)) whole'
    simp only [flatten_append, Text.byteLength_append, Span.Contains] at bound stop inside
    omega
  have rewritten : flatten result = Patch.rewrite patches (flatten whole) := by
    rw [Patch.rewrite, atEnd, List.append_nil]
    exact text
  have readsResult : Reads true [] result :=
    edited.reads reads (fun _ _ _ _ => rfl) fun _ => rfl
  rw [← rewritten, tokenize_of_reads String.toList_ofList.symm readsResult, tokens_map_lexeme,
    ← lexemes]
  rfl

end Parts

end Chunk

end Requalify
