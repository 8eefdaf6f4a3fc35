import Requalify.Proofs.Token.Border
import Requalify.UsingStatement

/-!
Parts of a text replaced or left out. If what stands at both ends of each part goes together with what
comes in its place, and no `#` begins or ceases to begin a directive, the other chunks stay the chunks
that they are.
-/

namespace Requalify

/-- Whether `#` is next on a line, behind blanks and block comments; the first argument tells whether a
comment is open. -/
def reachesHash : Bool → List Char → Bool
  | _, [] => false
  | true, '*' :: '/' :: rest => reachesHash false rest
  | true, _ :: rest => reachesHash true rest
  | false, '#' :: _ => true
  | false, '/' :: '*' :: rest => reachesHash true rest
  | false, c :: rest => Text.isAsciiBlank c && c != '\n' && reachesHash false rest

/-- The last character of one text and the first of another could be one token. -/
def joins (front back : Option Char) : Bool :=
  front.any Piece.isOperator && back.any fun c => Piece.isOperator c || c.isDigit

namespace Chunk

open Piece

variable {fresh : Bool} {c : Char} {rest after : List Char}

/-- A text that looks like another one to what stands in front of it. -/
structure Alike (after after' : List Char) : Prop where
  head : after'.head? = after.head?
  quote : after.head? = some '\'' →
    after'.tail.head?.any Char.isAlphanum = after.tail.head?.any Char.isAlphanum
  dots : after.head? = some '.' → after'.tail.head? = some '.' → after.tail.head? = some '.'
  paren : '(' ∈ after' → '(' ∈ after

theorem standsBefore_of_blank {chunk : Chunk} (kind : chunk.kind = none) (single : chunk.rest = [])
    (isBlank : Text.isAsciiBlank chunk.first = true) (fresh : Bool) (after : List Char) :
    chunk.StandsBefore fresh after := by
  obtain ⟨_, c, _⟩ := chunk
  obtain rfl := kind
  obtain rfl := single
  simp [StandsBefore, Piece.first, isBlank, ofKind]

theorem StandsBefore.alike {chunk : Chunk} {after' : List Char} (stands : chunk.StandsBefore fresh after)
    (alike : Alike after after') : chunk.StandsBefore fresh after' := by
  obtain ⟨head, quote, dots, paren⟩ := alike
  cases stands.ends with
  | withText nothing =>
      subst nothing
      have nothing' : after' = [] := by simpa using head
      rw [nothing']
      exact stands
  | inLine feed moves => exact moves after' (head.trans feed) paren
  | blank kind single isBlank => exact standsBefore_of_blank kind single isBlank fresh after'
  | closed solid moves => exact moves after'
  | word solid apart moves => exact moves after' (.inl ⟨head, quote⟩) paren
  | mark solid moves => exact moves after' (.inl ⟨head, dots⟩)

/-- In front of a name, a chunk stays what it is in front of anything that does not join it. -/
theorem StandsBefore.apart {chunk : Chunk} {after' : List Char} (stands : chunk.StandsBefore fresh after)
    (name : after.head?.any isNameStart = true) (apart : joins chunk.last after'.head? = false) :
    chunk.StandsBefore fresh after' := by
  cases stands.ends with
  | withText nothing => simp [nothing] at name
  | inLine feed moves =>
      rw [feed] at name
      exact absurd name (by decide)
  | blank kind single isBlank => exact standsBefore_of_blank kind single isBlank fresh after'
  | closed solid moves => exact moves after'
  | word solid apart moves =>
      cases after with
      | nil => simp at name
      | cons c after =>
          have part : isNamePart c = true := isNamePart_of_nameStart name
          simp [part] at apart
  | mark solid moves =>
      refine moves after' (.inr ?_)
      rw [joins, Option.any_some, Bool.and_eq_false_iff] at apart
      exact apart

/-- In front of something on its line, a chunk with a blank at its end is that blank. -/
theorem StandsBefore.blank {chunk : Chunk} {d : Char} (stands : chunk.StandsBefore fresh after)
    (isBlank : Text.isAsciiBlank chunk.last = true) (goesOn : after.head? = some d)
    (sameLine : d ≠ '\n') : chunk.kind = none ∧ chunk.rest = [] := by
  cases stands.ends with
  | withText nothing => simp [nothing] at goesOn
  | inLine feed moves => exact absurd (Option.some.inj (goesOn.symm.trans feed)) sameLine
  | blank kind single _ => exact ⟨kind, single⟩
  | closed solid moves => simp [isBlank] at solid
  | word solid apart moves => simp [isBlank] at solid
  | mark solid moves => simp [isBlank] at solid

theorem StandsBefore.lineFeed {chunk : Chunk} {d : Char} (stands : chunk.StandsBefore fresh after)
    (feed : chunk.last = '\n') (goesOn : after.head? = some d) (sameLine : d ≠ '\n') :
    chunk.kind = none ∧ chunk.rest = [] ∧ chunk.first = '\n' := by
  obtain ⟨kind, single⟩ := stands.blank (by rw [feed]; rfl) goesOn sameLine
  have same : chunk.last = chunk.first := by simp [last, single]
  exact ⟨kind, single, same ▸ feed⟩

/-- Behind a line feed the line is fresh. -/
theorem fresh_of_lineFeed {chunk : Chunk} {d : Char} (stands : chunk.StandsBefore fresh after)
    (feed : chunk.last = '\n') (goesOn : after.head? = some d) (sameLine : d ≠ '\n') :
    chunk.freshBehind fresh = true := by
  obtain ⟨kind, -, first⟩ := stands.lineFeed feed goesOn sameLine
  simp [freshBehind, kind, first]

/-! Where directives begin. -/

theorem standsBefore_congr {chunk : Chunk} {fresh' : Bool} (stands : chunk.StandsBefore fresh after)
    (same : chunk.first = '#' → fresh = fresh') : chunk.StandsBefore fresh' after := by
  by_cases hash : chunk.first = '#'
  · exact same hash ▸ stands
  · have plain : Piece.first fresh' chunk.first (chunk.rest ++ after) =
        Piece.first fresh chunk.first (chunk.rest ++ after) := by
      unfold Piece.first
      simp [hash]
    exact plain.trans stands

theorem reachesHash_comment {count : Nat} {body : List Char}
    (fits : commentLength count (body ++ after) = count + body.length) :
    reachesHash true (body ++ after) = reachesHash false after := by
  induction body generalizing count with
  | nil =>
      cases after with
      | nil => rfl
      | cons c after =>
          have stops : commentScan.Stops true (c :: after) := by
            rw [← Scan.length_eq_self, ← commentLength_eq_scan]
            exact fits
          simp only [Scan.Stops, commentScan, Bool.true_eq_false, if_false] at stops
          split at stops <;> simp at stops
  | cons c body ih =>
      by_cases closes : c = '*' ∧ (body ++ after).head? = some '/'
      · obtain ⟨rfl, slash⟩ := closes
        obtain ⟨others, parts⟩ := List.head?_eq_some_iff.mp slash
        rw [List.cons_append, parts, commentLength, List.length_cons] at fits
        obtain ⟨d, rfl⟩ : ∃ d, body = [d] := List.length_eq_one_iff.mp (by omega)
        obtain ⟨rfl, rfl⟩ := List.cons.inj parts
        rfl
      · have apart (others : List Char) (star : c = '*') (slash : body ++ after = '/' :: others) :
            False := closes ⟨star, by rw [slash]; rfl⟩
        rw [List.cons_append, commentLength.eq_2 _ _ _ apart, List.length_cons] at fits
        rw [List.cons_append, reachesHash.eq_3 _ _ apart]
        exact ih (fits.trans (by omega))

/-- What the lexer knows of its line in front of two texts agrees behind a chunk if it agrees in front
of it, as far as it matters. -/
theorem freshBehind_eq {chunk : Chunk} {fresh' : Bool} (stands : chunk.StandsBefore fresh' after)
    (same : reachesHash false (chunk.text ++ after) = true → fresh = fresh')
    (reaches : reachesHash false after = true) :
    chunk.freshBehind fresh = chunk.freshBehind fresh' := by
  obtain ⟨kind, c, rest⟩ := chunk
  cases kind with
  | some kind => rfl
  | none =>
      by_cases feed : c = '\n'
      · simp [freshBehind, feed]
      have hash : reachesHash false (c :: (rest ++ after)) = true := by
        rcases stands.gap_cases with
          ⟨isBlank, rfl⟩ | ⟨body, rfl, rfl, size⟩ | ⟨body, rfl, rfl, size⟩ | ⟨rfl, -⟩
        · have plain : c ≠ '#' ∧ c ≠ '/' := by
            constructor
            · rintro rfl
              exact absurd isBlank (by decide)
            · rintro rfl
              exact absurd isBlank (by decide)
          rw [reachesHash.eq_6 _ _ plain.1 fun _ slash => absurd slash plain.2]
          simp [isBlank, feed, reaches]
        · have whole : ((body ++ after).takeWhile (· != '\n')).length = body.length := by
            rw [List.length_cons] at size
            omega
          obtain ⟨-, lineEnd⟩ := length_takeWhile_append.mp whole
          cases after with
          | nil => simp [reachesHash] at reaches
          | cons d after =>
              obtain rfl : d = '\n' := by simpa using lineEnd
              simp [reachesHash] at reaches
        · rw [List.length_cons, Nat.add_comm] at size
          rw [List.cons_append, reachesHash, reachesHash_comment size]
          exact reaches
        · rfl
      rw [freshBehind, freshBehind, same hash]

/-! Replacing parts. -/

/-- What stands in front of `after`, with `previous` at its end, stays the same in front of `after'`. -/
inductive Begins (previous : Option Char) (after after' : List Char) : Prop
  | word (start : after.head?.any isNameStart = true) (apart : joins previous after'.head? = false)
  | line (lineStart : previous = none ∨ previous = some '\n') (c : Char) (first : after.head? = some c)
      (sameLine : c ≠ '\n')
  | separator (rest rest' : List Char) (before : after = ':' :: ':' :: rest)
      (now : after' = ':' :: ':' :: rest')

/-- In front of `behind'`, a `#` begins a directive if and only if it does so behind the old part. -/
inductive KeepsLine (previous : Option Char) (old new : List Chunk) (behind' : List Char) : Prop
  | noHash (other : reachesHash false behind' = false)
  | tokens {last last' : Chunk} (isLast : old.getLast? = some last) (token : last.kind.isSome = true)
      (isLast' : new.getLast? = some last') (token' : last'.kind.isSome = true)
  | wholeLines (lineStart : previous = none ∨ previous = some '\n')
      (feed : old.getLast? = some ⟨none, '\n', []⟩) (nothing : new = [])

/-- How a new part goes together with what stands around it. `previous` is the last character in front of
the old part, and `behind` and `behind'` are what follows the two. -/
structure Border (previous : Option Char) (old new : List Chunk) (behind behind' : List Char) :
    Prop where
  begins : Begins previous (flatten old ++ behind) (flatten new ++ behind')
  reads : ∀ fresh, Reads fresh behind' new
  plain : '(' ∉ flatten new
  lines : KeepsLine previous old new behind'

/-- The second list of chunks is the first one with some parts replaced. -/
inductive Edited : Option Char → List Chunk → List Chunk → Prop
  | nil (previous : Option Char) : Edited previous [] []
  | keep {previous : Option Char} {chunk : Chunk} {chunks result : List Chunk}
      (rest : Edited (some chunk.last) chunks result) :
      Edited previous (chunk :: chunks) (chunk :: result)
  | replace {previous : Option Char} {old new chunks result : List Chunk}
      (border : Border previous old new (flatten chunks) (flatten result))
      (rest : Edited ((flatten old).getLast?.or previous) chunks result) :
      Edited previous (old ++ chunks) (new ++ result)

theorem Begins.sameLine {previous : Option Char} {after' : List Char}
    (begins : Begins previous after after') : ∃ c, after.head? = some c ∧ c ≠ '\n' := by
  cases begins with
  | word start _ =>
      cases first : after.head? with
      | none => simp [first] at start
      | some c =>
          refine ⟨c, rfl, ?_⟩
          rintro rfl
          rw [first] at start
          exact absurd start (by decide)
  | line _ c first sameLine => exact ⟨c, first, sameLine⟩
  | separator rest _ before _ => exact ⟨':', by rw [before]; rfl, by decide⟩

theorem text_getLast? (chunk : Chunk) : chunk.text.getLast? = some chunk.last := by
  simp [text, last, List.getLast?_cons]

theorem paren_of_edited {previous : Option Char} {chunks result : List Chunk}
    (edited : Edited previous chunks result) (paren : '(' ∈ flatten result) : '(' ∈ flatten chunks := by
  induction edited with
  | nil => exact paren
  | keep rest ih =>
      rw [flatten_cons, List.mem_append] at paren ⊢
      exact paren.imp_right ih
  | replace border rest ih =>
      rw [flatten_append, List.mem_append] at paren ⊢
      exact paren.elim (fun inNew => absurd inNew border.plain) fun inRest => .inr (ih inRest)

theorem head?_of_edited {last : Char} {chunks result : List Chunk}
    (edited : Edited (some last) chunks result) :
    (flatten result).head? = (flatten chunks).head? ∨
      joins last (flatten result).head? = false ∧
        ((flatten chunks).head?.any isNameStart = true ∨ last = '\n') := by
  cases edited with
  | nil => exact .inl rfl
  | keep rest => exact .inl rfl
  | replace border rest =>
      rw [flatten_append, flatten_append]
      cases border.begins with
      | word start apart => exact .inr ⟨apart, .inl start⟩
      | line lineStart =>
          have feed : last = '\n' := by simpa using lineStart
          exact .inr ⟨by rw [feed]; rfl, .inr feed⟩
      | separator _ _ before now => exact .inl (by rw [before, now]; rfl)

/-- A mark alone is a literal that the line does not close. -/
theorem lineEnd_of_mark {kind : Option TokenKind}
    (stands : StandsBefore ⟨kind, '\'', []⟩ fresh after) : after = [] ∨ after.head? = some '\n' := by
  have size : withSuffix (quotedLength '\'' 0 after) after = 0 := by
    rw [StandsBefore, first_of_quote (.inr rfl)] at stands
    cases kind with
    | none => simp [ofKind] at stands
    | some kind => exact (Piece.token.inj stands).2
  have length : quotedLength '\'' 0 after = 0 := by
    rw [withSuffix] at size
    omega
  rw [quotedLength_eq_scan, Scan.length_eq_self] at length
  cases after with
  | nil => exact .inl rfl
  | cons c after =>
      refine .inr ?_
      simp only [Scan.Stops, quotedScan] at length
      grind

/-- A text with edits behind its first chunk looks the same in front of it. -/
theorem alike_of_keep {chunk : Chunk} {chunks result : List Chunk}
    (stands : chunk.StandsBefore fresh (flatten chunks))
    (edited : Edited (some chunk.last) chunks result) :
    Alike (flatten (chunk :: chunks)) (flatten (chunk :: result)) := by
  obtain ⟨kind, c, rest⟩ := chunk
  have paren := paren_of_edited (Edited.keep edited : Edited none _ _)
  refine ⟨rfl, ?_, ?_, paren⟩
  · intro isMark
    obtain rfl : c = '\'' := Option.some.inj isMark
    cases rest with
    | cons d rest => rfl
    | nil =>
        have lineEnd := lineEnd_of_mark stands
        rcases head?_of_edited edited with same | ⟨-, start | feed⟩
        · exact congrArg (·.any Char.isAlphanum) same
        · rcases lineEnd with atEnd | feed
          · simp [atEnd] at start
          · rw [feed] at start
            exact absurd start (by decide)
        · simp [last] at feed
  · intro isDot nextDot
    obtain rfl : c = '.' := Option.some.inj isDot
    cases rest with
    | cons d rest => exact nextDot
    | nil =>
        have next : (flatten result).head? = some '.' := nextDot
        rcases head?_of_edited edited with same | ⟨apart, -⟩
        · exact same.symm.trans next
        · rw [next] at apart
          have joined : joins (some '.') (some '.') = false := apart
          exact absurd joined (by decide)

theorem moves_of_edited {chunk : Chunk} {chunks result : List Chunk}
    (stands : chunk.StandsBefore fresh (flatten chunks))
    (reads : Reads (chunk.freshBehind fresh) [] chunks)
    (edited : Edited (some chunk.last) chunks result) :
    chunk.StandsBefore fresh (flatten result) := by
  have paren := paren_of_edited edited
  generalize previous : some chunk.last = previous at edited
  cases edited with
  | nil => exact stands
  | keep rest =>
      rw [Reads, List.append_nil] at reads
      exact stands.alike (alike_of_keep reads.1 rest)
  | replace border rest =>
      subst previous
      rw [flatten_append, flatten_append] at paren
      rw [flatten_append] at stands ⊢
      cases border.begins with
      | word start apart => exact stands.apart start apart
      | line lineStart c goesOn sameLine =>
          have feed : chunk.last = '\n' := by simpa using lineStart
          obtain ⟨kind, single, first⟩ := stands.lineFeed feed goesOn sameLine
          exact standsBefore_of_blank kind single (by rw [first]; rfl) fresh _
      | separator rest rest' before now =>
          rw [before] at stands
          rw [before, now] at paren
          rw [now]
          exact stands.alike ⟨rfl, by simp, by simp, paren⟩

theorem freshBehind_of_token {chunks : List Chunk} {chunk : Chunk}
    (isLast : chunks.getLast? = some chunk)
    (token : chunk.kind.isSome = true) : chunks.foldl freshBehind fresh = false := by
  obtain ⟨front, rfl⟩ := List.getLast?_eq_some_iff.mp isLast
  obtain ⟨kind, isKind⟩ := Option.isSome_iff_exists.mp token
  rw [List.foldl_append]
  simp [freshBehind, isKind]

/-- The chunks of an edited text are what is kept and what is new. -/
theorem Edited.reads {previous : Option Char} {chunks result : List Chunk}
    (edited : Edited previous chunks result) {fresh fresh' : Bool} (reads : Reads fresh [] chunks)
    (opened : previous = none ∨ previous = some '\n' →
      ∀ c, (flatten chunks).head? = some c → c ≠ '\n' → fresh = true)
    (same : reachesHash false (flatten result) = true → fresh = fresh') : Reads fresh' [] result := by
  induction edited generalizing fresh fresh' with
  | nil => trivial
  | @keep previous chunk chunks result rest ih =>
      rw [Reads, List.append_nil] at reads ⊢
      obtain ⟨stands, reads⟩ := reads
      have stands' : chunk.StandsBefore fresh' (flatten result) := by
        refine standsBefore_congr (moves_of_edited stands reads rest) fun hash => same ?_
        rw [flatten_cons, text, hash]
        rfl
      refine ⟨stands', ih reads ?_ (freshBehind_eq stands' same)⟩
      intro lineStart c goesOn sameLine
      exact fresh_of_lineFeed stands (by simpa using lineStart) goesOn sameLine
  | @replace previous old new chunks result border rest ih =>
      rw [reads_append, List.append_nil] at reads ⊢
      obtain ⟨oldReads, reads⟩ := reads
      refine ⟨border.reads fresh', ih reads ?_ ?_⟩
      · intro lineStart c goesOn sameLine
        rcases List.eq_nil_or_concat old with rfl | ⟨front, chunk, rfl⟩
        · exact opened (by simpa using lineStart) c goesOn sameLine
        · rw [List.concat_eq_append] at oldReads lineStart ⊢
          have feed : chunk.last = '\n' := by
            simpa [text_getLast?] using lineStart
          have stands : chunk.StandsBefore _ (flatten chunks) := (reads_append.mp oldReads).2.1
          rw [List.foldl_append]
          exact fresh_of_lineFeed stands feed goesOn sameLine
      · intro reaches
        cases border.lines with
        | noHash other => simp [other] at reaches
        | tokens isLast token isLast' token' =>
            rw [freshBehind_of_token isLast token, freshBehind_of_token isLast' token']
        | wholeLines lineStart feed nothing =>
            subst nothing
            obtain ⟨c, goesOn, sameLine⟩ := border.begins.sameLine
            rw [← flatten_append] at goesOn
            obtain ⟨front, rfl⟩ := List.getLast?_eq_some_iff.mp feed
            rw [List.foldl_append, List.foldl_nil, ← same reaches,
              opened lineStart c goesOn sameLine]
            simp [freshBehind]

end Chunk

end Requalify
