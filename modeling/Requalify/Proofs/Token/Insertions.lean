import Requalify.Proofs.Token.Inserted
import Requalify.Proofs.Token.Joined
import Requalify.Proofs.Token.Segments

/-!
A name written at places of a text: with a blank behind the keyword of an anonymous namespace, with `::`
in front of an identifier, and alone in front of a separator. The chunks of the new text are those of the
old one and the new ones, except that in front of a separator a name becomes a part of the word, number or
literal that stands there.
-/

namespace Requalify

namespace Chunk

open Piece

/-- The chunk at `offset` as a token. -/
def token? (chunk : Chunk) (offset : Nat) : Option Token :=
  chunk.kind.map fun kind => ⟨kind, String.ofList chunk.text, offset⟩

/-- What is written in front of a chunk: nothing, the name of the namespace whose keyword stands there, a
qualifier, or a name that is a qualifier together with the separator. -/
inductive Put where
  | nothing
  | label
  | qualify
  | lead
  deriving DecidableEq

namespace Put

def text (name : String) : Put → List Char
  | nothing => []
  | label => ' ' :: name.toList
  | qualify => name.toList ++ [':', ':']
  | lead => name.toList

def chunks (name : String) : Put → List Chunk
  | nothing => []
  | label => [⟨none, ' ', []⟩, ofName name]
  | qualify => [ofName name, separator]
  | lead => [ofName name]

/-- What is written stands where it is meant to stand: behind `previous`, in front of the chunks at
`offset`. -/
def Fits (previous : Option Token) (offset : Nat) (chunks : List Chunk) : Put → Prop
  | nothing => True
  | label => ∃ keyword ∈ previous, keyword.opensAnonymous (tokens offset chunks) = true
  | qualify => ∃ chunk ∈ chunks.head?, chunk.kind = some .identifier
  | lead => ∃ chunk ∈ chunks.head?, chunk.kind = some .scope

theorem flatten_chunks {name : String} (isName : IsName name) (put : Put) :
    flatten (put.chunks name) = put.text name := by
  cases put with
  | nothing => rfl
  | label => simp [chunks, text, Chunk.text, ← text_ofName isName]
  | qualify => simp [chunks, text, Chunk.text, separator, ← text_ofName isName]
  | lead => simp [chunks, text, text_ofName isName]

end Put

/-- `holds` where the chunks, which stand at `offset` behind `previous`, meet. -/
def Everywhere (holds : Option Token → Nat → List Chunk → Prop) :
    Option Token → Nat → List Chunk → Prop
  | previous, offset, [] => holds previous offset []
  | previous, offset, chunk :: chunks =>
      holds previous offset (chunk :: chunks) ∧
        Everywhere holds (chunk.token? offset) (offset + Text.byteLength chunk.text) chunks

theorem Everywhere.here {holds : Option Token → Nat → List Chunk → Prop} {previous : Option Token}
    {offset : Nat} {chunks : List Chunk} (everywhere : Everywhere holds previous offset chunks) :
    holds previous offset chunks := by
  cases chunks with
  | nil => exact everywhere
  | cons chunk chunks => exact everywhere.1

/-- `written` fits wherever chunks meet. -/
def Fitting (written : Nat → Put) : Option Token → Nat → List Chunk → Prop :=
  Everywhere fun previous offset chunks => (written offset).Fits previous offset chunks

/-- Every keyword of an anonymous namespace gets a name. -/
def Complete (written : Nat → Put) : Option Token → Nat → List Chunk → Prop :=
  Everywhere fun previous offset chunks => ∀ keyword ∈ previous,
    keyword.opensAnonymous (tokens offset chunks) = true → written offset = .label

/-- The text of the chunks at `offset` with what is written behind each of them. -/
def woven (name : String) (written : Nat → Put) : Nat → List Chunk → List Char
  | _, [] => []
  | offset, chunk :: chunks =>
      let stop := offset + Text.byteLength chunk.text
      chunk.text ++ ((written stop).text name ++ woven name written stop chunks)

/-- The chunks of a chunk with something written behind it. -/
inductive Behind (name : String) (chunk : Chunk) : Put → List Chunk → Prop
  | apart (put : Put) (plain : put = .lead → chunk.isWord = false) :
      Behind name chunk put (chunk :: put.chunks name)
  | joined {kind : TokenKind} (word : chunk.isWord = true) (noMark : kind ≠ .punctuator) :
      Behind name chunk .lead [chunk.joined kind name]

/-- The chunks of the woven text. -/
inductive Becomes (name : String) (written : Nat → Put) : Nat → List Chunk → List Chunk → Prop
  | nil (offset : Nat) : Becomes name written offset [] []
  | cons {offset : Nat} {chunk : Chunk} {chunks front result : List Chunk}
      (behind : Behind name chunk (written (offset + Text.byteLength chunk.text)) front)
      (others : Becomes name written (offset + Text.byteLength chunk.text) chunks result) :
      Becomes name written offset (chunk :: chunks) (front ++ result)

section Becomes

variable {name : String} {written : Nat → Put} {put : Put} {previous : Option Token} {offset : Nat}
  {fresh : Bool} {chunks result : List Chunk}

theorem reads_of_token {chunk : Chunk} {after : List Char} (isToken : chunk.kind.isSome = true)
    (plain : chunk.first ≠ '#') (reads : Reads fresh after (chunk :: chunks)) (fresh' : Bool) :
    Reads fresh' after (chunk :: chunks) := by
  obtain ⟨stands, reads⟩ := reads
  obtain ⟨kind, isKind⟩ := Option.isSome_iff_exists.mp isToken
  refine ⟨standsBefore_congr stands fun hash => absurd hash plain, ?_⟩
  simpa [freshBehind, isKind] using reads

theorem tokens_cons_token? (chunk : Chunk) (chunks : List Chunk) (offset : Nat) :
    tokens offset (chunk :: chunks) =
      (chunk.token? offset).toList ++ tokens (offset + Text.byteLength chunk.text) chunks :=
  rfl

theorem tokens_ofName (isName : IsName name) (offset : Nat) (chunks : List Chunk) :
    ∃ token, token.isIdentifier = true ∧
      tokens offset (ofName name :: chunks) =
        token :: tokens (offset + Text.byteLength name.toList) chunks := by
  refine ⟨⟨.identifier, String.ofList (ofName name).text, offset⟩, rfl, ?_⟩
  rw [← text_ofName isName]
  rfl

theorem tokens_label (isName : IsName name) (offset : Nat) (chunks : List Chunk) :
    ∃ token, token.isIdentifier = true ∧
      ∃ offset', tokens offset (Put.label.chunks name ++ chunks) = token :: tokens offset' chunks := by
  obtain ⟨token, isToken, tokensEq⟩ := tokens_ofName isName (offset + Text.byteLength [' ']) chunks
  exact ⟨token, isToken, _, tokensEq⟩

theorem tokens_separator (offset : Nat) (chunks : List Chunk) :
    ∃ token : Token, token.lexeme = (.scope, "::") ∧
      tokens offset (separator :: chunks) = token :: tokens (offset + 2) chunks :=
  ⟨⟨.scope, "::", offset⟩, rfl, rfl⟩

theorem first_of_identifier {chunk : Chunk} {after : List Char} (kind : chunk.kind = some .identifier)
    (stands : chunk.StandsBefore fresh after) : isNameStart chunk.first = true := by
  obtain ⟨_, c, rest⟩ := chunk
  obtain rfl := kind
  exact isNameStart_of_word (.inl rfl) stands

theorem ne_hash_of_nameStart {c : Char} (start : isNameStart c = true) : c ≠ '#' := by
  rintro rfl
  exact absurd start (by decide)

/-- A keyword ends in front of what does not go on with it. -/
theorem keyword_standsBefore {chunk : Chunk} {after after' : List Char} (kind : chunk.kind = some .keyword)
    (stands : chunk.StandsBefore fresh after) :
    after.head?.any isNamePart = false ∧
      (after'.head? = some ' ' → chunk.StandsBefore fresh after') := by
  obtain ⟨_, c, rest⟩ := chunk
  obtain rfl := kind
  have start : isNameStart c = true := isNameStart_of_word (.inr rfl) stands
  rw [StandsBefore, first_of_nameStart start] at stands
  have fits : Piece.ofName c (rest ++ after) = .token .keyword rest.length := stands
  rcases ofName_cases fits with ⟨parts, apart, -, word⟩ | ⟨_, _, _, _, _, _, _, other, _⟩
  · refine ⟨apart, fun blank => ?_⟩
    have plain (mark : Char) (first : after'.head? = some mark) :
        literalLength? (String.ofList (c :: rest)) mark = none := by
      obtain rfl : ' ' = mark := Option.some.inj (blank.symm.trans first)
      rfl
    rw [StandsBefore, first_of_nameStart start, ofName_word parts (by rw [blank]; rfl) plain, ← word]
    rfl
  · simp at other

/-- What follows the keyword of an anonymous namespace begins no literal. -/
theorem mark_of_opensAnonymous {keyword : Token} {after : List Char}
    (opens : keyword.opensAnonymous (tokens offset chunks) = true)
    (reads : Reads fresh after chunks) (mark : Char)
    (first : (flatten chunks).head? = some mark) : mark ≠ '"' ∧ mark ≠ '\'' := by
  cases chunks with
  | nil => simp at first
  | cons chunk rest =>
      obtain rfl : chunk.first = mark := Option.some.inj first
      cases kind : chunk.kind with
      | none =>
          rcases (isGap_of_stands kind reads.1).shape with ⟨isBlank, -⟩ | slash | hash
          · constructor
            · intro quote
              rw [quote] at isBlank
              exact absurd isBlank (by decide)
            · intro quote
              rw [quote] at isBlank
              exact absurd isBlank (by decide)
          · rw [slash]
            decide
          · rw [hash]
            decide
      | some kind' =>
          have tokensEq : tokens offset (chunk :: rest) =
              ⟨kind', String.ofList chunk.text, offset⟩ ::
                tokens (offset + Text.byteLength chunk.text) rest := by
            simp [tokens, kind]
          rw [tokensEq] at opens
          have words : ∀ word ∈ ["[", "\x7b", "alignas", "__attribute__", "__declspec"],
              word.toList.head? ≠ some '"' ∧ word.toList.head? ≠ some '\'' := by
            decide
          have notMark := words _ (Token.text_of_opensAnonymous opens)
          simpa [Chunk.text] using notMark

theorem Behind.flatten_eq (isName : IsName name) {chunk : Chunk} {front : List Chunk}
    (behind : Behind name chunk put front) : flatten front = chunk.text ++ put.text name := by
  cases behind with
  | apart => rw [flatten_cons, put.flatten_chunks isName]
  | joined => simp [Chunk.text, Chunk.joined, Put.text]

theorem Becomes.flatten_eq (isName : IsName name) (becomes : Becomes name written offset chunks result) :
    flatten result = woven name written offset chunks := by
  induction becomes with
  | nil => rfl
  | cons behind _ ih => rw [flatten_append, behind.flatten_eq isName, ih, List.append_assoc, woven]

/-- The first chunk begins as before, and a separator is kept. -/
theorem Becomes.head {chunk : Chunk} {rest : List Chunk}
    (becomes : Becomes name written offset (chunk :: rest) result) :
    ∃ first more, result = first :: more ∧ first.first = chunk.first ∧
      first.kind.isSome = chunk.kind.isSome ∧ (chunk.kind = some .scope → first = chunk) := by
  cases becomes with
  | cons behind others =>
      generalize written _ = put at behind
      cases behind with
      | apart => exact ⟨chunk, _, rfl, rfl, rfl, fun _ => rfl⟩
      | joined word =>
          obtain ⟨kind, isKind, -, noScope⟩ := kind_of_isWord word
          refine ⟨_, _, rfl, rfl, by simp [isKind, Chunk.joined], fun scope => ?_⟩
          exact absurd (Option.some.inj (isKind.symm.trans scope)) noScope

theorem Put.plain (isName : IsName name) (put : Put) : '(' ∉ put.text name := by
  have noParen : '(' ∉ name.toList := fun member => absurd (isName.isNamePart member) (by decide)
  cases put with
  | nothing => simp [Put.text]
  | label => simpa [Put.text] using noParen
  | qualify => simpa [Put.text] using noParen
  | lead => exact noParen

/-- What is written begins with a blank or a name. -/
theorem Put.head (isName : IsName name) (put : Put) :
    put.text name = [] ∨ ∃ c, (put.text name).head? = some c ∧ (c = ' ' ∨ isNameStart c = true) := by
  obtain ⟨c, rest, parts, start, -⟩ := isName.parts
  cases put with
  | nothing => exact .inl rfl
  | label => exact .inr ⟨' ', rfl, .inl rfl⟩
  | qualify => exact .inr ⟨c, by simp [Put.text, parts], .inr start⟩
  | lead => exact .inr ⟨c, by simp [Put.text, parts], .inr start⟩

/-- Nothing is written at the end of a line but the name behind a keyword. -/
theorem Put.lineEnd (fits : put.Fits previous offset chunks) (reads : Reads fresh [] chunks)
    (lineEnd : flatten chunks = [] ∨ (flatten chunks).head? = some '\n') :
    put = .nothing ∨ ∃ token ∈ previous, token.kind = .keyword := by
  cases put with
  | nothing => exact .inl rfl
  | label =>
      obtain ⟨keyword, isPrevious, opens⟩ := fits
      exact .inr ⟨keyword, isPrevious, Token.kind_of_opensAnonymous opens⟩
  | qualify =>
      obtain ⟨chunk, isHead, kind⟩ := fits
      obtain ⟨rest, rfl⟩ := List.head?_eq_some_iff.mp isHead
      have start := first_of_identifier kind reads.1
      have feed : chunk.first = '\n' := by simpa [Chunk.text] using lineEnd
      rw [feed] at start
      exact absurd start (by decide)
  | lead =>
      obtain ⟨chunk, isHead, kind⟩ := fits
      obtain ⟨rest, rfl⟩ := List.head?_eq_some_iff.mp isHead
      obtain rfl := eq_separator kind reads.1
      simp [separator, Chunk.text] at lineEnd

section Step

variable {chunk : Chunk} {start : Nat} (isName : IsName name)
  (fits : put.Fits (chunk.token? start) offset chunks) (alike : Alike (flatten chunks) (flatten result))
  (reads : Reads fresh [] (chunk :: chunks))

include isName fits alike reads

/-- To what stands in front of a chunk, what is written behind it makes no difference. -/
theorem alike_of_put :
    Alike (flatten (chunk :: chunks)) (chunk.text ++ (put.text name ++ flatten result)) := by
  obtain ⟨kind, c, rest⟩ := chunk
  rw [Reads, List.append_nil] at reads
  obtain ⟨stands, reads⟩ := reads
  have sameHead (nothing : put.text name = []) :
      (put.text name ++ flatten result).head? = (flatten chunks).head? := by
    rw [nothing]
    exact alike.head
  refine ⟨rfl, fun isMark => ?_, fun isDot nextDot => ?_, fun paren => ?_⟩
  · obtain rfl : c = '\'' := Option.some.inj isMark
    cases rest with
    | cons d rest => rfl
    | nil =>
        rcases Put.lineEnd fits reads (lineEnd_of_mark stands) with rfl | ⟨token, isPrevious, word⟩
        · exact congrArg (·.any Char.isAlphanum) (sameHead rfl)
        · obtain ⟨kind', isKind, rfl⟩ := Option.map_eq_some_iff.mp isPrevious
          obtain rfl : kind = some kind' := isKind
          obtain rfl : kind' = .keyword := word
          exact absurd (isNameStart_of_word (.inr rfl) stands) (by decide)
  · obtain rfl : c = '.' := Option.some.inj isDot
    cases rest with
    | cons d rest => exact nextDot
    | nil =>
        have next : (put.text name ++ flatten result).head? = some '.' := nextDot
        rcases put.head isName with nothing | ⟨d, first, blank | nameStart⟩
        · exact (sameHead nothing).symm.trans next
        · simp [List.head?_append, first, blank] at next
        · simp only [List.head?_append, first, Option.some_or, Option.some.injEq] at next
          rw [next] at nameStart
          exact absurd nameStart (by decide)
  · rw [flatten_cons, List.mem_append]
    rcases List.mem_append.mp paren with inChunk | later
    · exact .inl inChunk
    · rcases List.mem_append.mp later with inPut | inResult
      · exact absurd inPut (put.plain isName)
      · exact .inr (alike.paren inResult)

end Step

/-- A qualifier in front of the chunks is read there. -/
theorem reads_put (isName : IsName name) (fits : put.Fits previous offset chunks) (other : put ≠ .label)
    (becomes : Becomes name written offset chunks result) (reads : Reads fresh [] chunks)
    (readsResult : Reads fresh [] result) : Reads fresh [] (put.chunks name ++ result) := by
  cases put with
  | nothing => exact readsResult
  | label => exact absurd rfl other
  | qualify =>
      obtain ⟨chunk, isHead, kind⟩ := fits
      obtain ⟨rest, rfl⟩ := List.head?_eq_some_iff.mp isHead
      obtain ⟨first, more, rfl, firstEq, isToken, -⟩ := becomes.head
      rw [kind, Option.isSome_some] at isToken
      have start := first_of_identifier kind reads.1
      exact ⟨ofName_standsBefore isName _ _, separator_standsBefore _ _,
        reads_of_token isToken (by rw [firstEq]; exact ne_hash_of_nameStart start) readsResult false⟩
  | lead =>
      obtain ⟨chunk, isHead, kind⟩ := fits
      obtain ⟨rest, rfl⟩ := List.head?_eq_some_iff.mp isHead
      obtain ⟨first, more, rfl, -, -, same⟩ := becomes.head
      obtain rfl := same kind
      obtain rfl := eq_separator kind reads.1
      exact ⟨ofName_standsBefore isName _ _, reads_of_token rfl (by decide) readsResult false⟩

section Behind

variable {chunk : Chunk} {start : Nat} (isName : IsName name)
  (alike : Alike (flatten chunks) (flatten result)) (reads : Reads fresh [] (chunk :: chunks))
  (readsResult : Reads (chunk.freshBehind fresh) [] result)

include isName alike reads readsResult

/-- The name of a namespace is read behind its keyword. -/
theorem reads_label (fits : Put.label.Fits (chunk.token? start) offset chunks) :
    Reads fresh [] (chunk :: Put.label.chunks name ++ result) := by
  obtain ⟨keyword, isKeyword, opens⟩ := fits
  obtain ⟨stands, reads⟩ := reads
  rw [List.append_nil] at stands
  have kind : chunk.kind = some .keyword := by
    obtain ⟨kind, isKind, rfl⟩ := Option.map_eq_some_iff.mp isKeyword
    exact isKind.trans (congrArg some (Token.kind_of_opensAnonymous opens))
  have stale : chunk.freshBehind fresh = false := by simp [freshBehind, kind]
  rw [stale] at readsResult
  obtain ⟨apart, moves⟩ := @keyword_standsBefore _ _ _
    (flatten (Put.label.chunks name ++ result) ++ []) kind stands
  have nameStands (fresh : Bool) : (ofName name).StandsBefore fresh (flatten result) := by
    refine ofName_standsBefore_of_apart isName _ (by rw [alike.head]; exact apart) fun mark first => ?_
    exact mark_of_opensAnonymous opens reads mark (alike.head.symm.trans first)
  rw [← List.append_nil (flatten result)] at nameStands
  exact ⟨moves rfl, standsBefore_of_blank rfl rfl rfl _ _, nameStands _, readsResult⟩

/-- Put behind a chunk, a name is read there, or the chunk takes it in. -/
theorem exists_behind (becomes : Becomes name written offset chunks result)
    (fits : put.Fits (chunk.token? start) offset chunks) :
    ∃ front, Behind name chunk put front ∧ Reads fresh [] (front ++ result) := by
  have stands := reads.1
  rw [List.append_nil] at stands
  have kept (other : put ≠ .label) (moves : chunk.StandsBefore fresh (put.text name ++ flatten result)) :
      Reads fresh [] (chunk :: put.chunks name ++ result) := by
    rw [← put.flatten_chunks isName, ← flatten_append, ← List.append_nil (flatten _)] at moves
    exact ⟨moves, reads_put isName fits other becomes reads.2 readsResult⟩
  cases put with
  | nothing => exact ⟨_, .apart .nothing (by simp), kept (by simp) (stands.alike alike)⟩
  | label => exact ⟨_, .apart .label (by simp), reads_label isName alike reads readsResult fits⟩
  | qualify =>
      refine ⟨_, .apart .qualify (by simp), kept (by simp) (stands.apart ?_ ?_)⟩
      · obtain ⟨next, isHead, kind⟩ := fits
        obtain ⟨rest, rfl⟩ := List.head?_eq_some_iff.mp isHead
        exact first_of_identifier kind reads.2.1
      · obtain ⟨c, others, first, nameStart, -⟩ := isName.parts
        simpa [Put.text, first] using joins_nameStart nameStart _
  | lead =>
      obtain ⟨next, isHead, kind⟩ := id fits
      obtain ⟨rest, rfl⟩ := List.head?_eq_some_iff.mp isHead
      obtain ⟨first, more, rfl, -, -, same⟩ := becomes.head
      obtain rfl := same kind
      obtain rfl := eq_separator kind reads.2.1
      have paren : '(' ∈ flatten more → '(' ∈ flatten rest := by
        simpa [separator, Chunk.text] using alike.paren
      cases stands.meetsName isName paren with
      | apart plain moves => exact ⟨_, .apart .lead fun _ => plain, kept (by simp) moves⟩
      | @joined kind' word noMark moves =>
          obtain ⟨_, isKind, -⟩ := kind_of_isWord word
          rw [show ':' :: ':' :: flatten more = flatten (separator :: more) ++ [] by
            rw [List.append_nil]; rfl] at moves
          have stale : (chunk.joined kind' name).freshBehind fresh = chunk.freshBehind fresh := by
            simp [freshBehind, isKind, Chunk.joined]
          exact ⟨_, .joined word noMark, moves, stale ▸ readsResult⟩

end Behind

/-- The woven text is read chunk by chunk. -/
theorem exists_becomes (isName : IsName name) (fitting : Fitting written previous offset chunks)
    (reads : Reads fresh [] chunks) :
    ∃ result, Becomes name written offset chunks result ∧ Reads fresh [] result ∧
      Alike (flatten chunks) (flatten result) := by
  induction chunks generalizing previous offset fresh with
  | nil => exact ⟨[], .nil offset, trivial, rfl, fun _ => rfl, fun _ dot => dot, id⟩
  | cons chunk chunks ih =>
      obtain ⟨-, fitting⟩ := fitting
      obtain ⟨result, becomes, readsResult, alike⟩ := ih fitting reads.2
      have fits := Everywhere.here fitting
      obtain ⟨front, behind, readsFront⟩ := exists_behind isName alike reads readsResult becomes fits
      refine ⟨front ++ result, .cons behind becomes, readsFront, ?_⟩
      rw [flatten_append, behind.flatten_eq isName, List.append_assoc]
      exact alike_of_put isName fits alike reads

/-- A qualifier is put in front of the tokens. -/
theorem inserted_put (isName : IsName name) (fits : put.Fits previous offset chunks)
    (other : put ≠ .label) (becomes : Becomes name written offset chunks result)
    (reads : Reads fresh [] chunks)
    (inserted : ∀ place, Token.Inserted (tokens offset chunks) (tokens place result)) (place : Nat) :
    Token.Inserted (tokens offset chunks) (tokens place (put.chunks name ++ result)) := by
  cases put with
  | nothing => exact inserted place
  | label => exact absurd rfl other
  | qualify =>
      obtain ⟨token, isToken, tokensEq⟩ := tokens_ofName isName place (separator :: result)
      obtain ⟨colons, isColons, colonsEq⟩ :=
        tokens_separator (place + Text.byteLength name.toList) result
      simp only [Put.chunks, List.cons_append, List.nil_append]
      rw [tokensEq, colonsEq]
      refine .name isToken ?_ (.separator isColons (inserted _))
      simp [Token.startsWithScope, isColons]
  | lead =>
      obtain ⟨chunk, isHead, kind⟩ := fits
      obtain ⟨rest, rfl⟩ := List.head?_eq_some_iff.mp isHead
      obtain ⟨first, more, rfl, -, -, same⟩ := becomes.head
      obtain rfl := same kind
      obtain rfl := eq_separator kind reads.1
      obtain ⟨token, isToken, tokensEq⟩ := tokens_ofName isName place (separator :: more)
      simp only [Put.chunks, List.cons_append, List.nil_append]
      rw [tokensEq]
      exact .name isToken rfl (inserted _)

/-- The tokens of the woven text are those of the text with names put in. -/
theorem Becomes.inserted (isName : IsName name) (becomes : Becomes name written offset chunks result)
    (fitting : Fitting written previous offset chunks)
    (complete : Complete written previous offset chunks) (reads : Reads fresh [] chunks) (place : Nat) :
    Token.Inserted (tokens offset chunks) (tokens place result) := by
  induction becomes generalizing previous fresh place with
  | nil => exact .nil
  | @cons offset chunk chunks front result behind others ih =>
      have ih := ih fitting.2 complete.2 reads.2
      have fits := Everywhere.here fitting.2
      have named := Everywhere.here complete.2
      generalize written _ = put at behind fits named
      rw [tokens_cons_token?]
      cases behind with
      | joined word noMark =>
          obtain ⟨kind, isKind, noPunctuator, -⟩ := kind_of_isWord word
          obtain ⟨next, isHead, scope⟩ := fits
          obtain ⟨rest, rfl⟩ := List.head?_eq_some_iff.mp isHead
          obtain ⟨first, more, rfl, -, -, same⟩ := others.head
          obtain rfl := same scope
          obtain rfl := eq_separator scope reads.2.1
          simp only [List.cons_append, List.nil_append, tokens_cons_token?, token?, isKind,
            Chunk.joined, Option.map_some, Option.toList_some]
          exact .joined noPunctuator noMark rfl (ih _)
      | apart =>
          rw [List.cons_append, tokens_cons_token?]
          by_cases isLabel : put = .label
          · subst isLabel
            obtain ⟨keyword, isKeyword, opens⟩ := fits
            obtain ⟨kind, isKind, rfl⟩ := Option.map_eq_some_iff.mp isKeyword
            obtain ⟨token, isToken, place', tokensEq⟩ :=
              tokens_label isName (place + Text.byteLength chunk.text) result
            simp only [token?, isKind, Option.map_some, Option.toList_some, List.cons_append,
              List.nil_append]
            rw [tokensEq]
            exact .label rfl opens isToken (ih _)
          · have behind := inserted_put isName fits isLabel others reads.2 ih
            cases kind : chunk.kind with
            | none =>
                simp only [token?, kind, Option.map_none, Option.toList_none, List.nil_append]
                exact behind _
            | some kind' =>
                simp only [token?, kind, Option.map_some, Option.toList_some, List.cons_append,
                  List.nil_append] at named ⊢
                have other := Bool.eq_false_iff.mpr fun opens => isLabel (named _ rfl opens)
                exact .keep rfl other (behind _)

end Becomes

section Whole

variable {name : String} {written : Nat → Put} {whole : List Chunk} (isName : IsName name)
  (fitting : Fitting written none 0 whole) (reads : Reads true [] whole)

include fitting

theorem ne_label_of_fitting : written 0 ≠ .label := by
  intro isLabel
  have fits := Everywhere.here fitting
  rw [isLabel] at fits
  obtain ⟨_, nothing, -⟩ := fits
  simp at nothing

include isName reads

/-- The chunks of a text with names written into it. -/
theorem tokenize_woven : ∃ result, Becomes name written 0 whole result ∧
    tokenize (String.ofList ((written 0).text name ++ woven name written 0 whole)) =
      tokens 0 ((written 0).chunks name ++ result) := by
  obtain ⟨result, becomes, readsResult, -⟩ := exists_becomes isName fitting reads
  have readsWhole := reads_put isName (Everywhere.here fitting) (ne_label_of_fitting fitting) becomes
    reads readsResult
  refine ⟨result, becomes, tokenize_of_reads ?_ readsWhole⟩
  rw [flatten_append, Put.flatten_chunks isName, becomes.flatten_eq isName, String.toList_ofList]

/-- The tokens of a text with names written into it are its tokens with names put in. -/
theorem inserted_woven (complete : Complete written none 0 whole) :
    Token.Inserted (tokens 0 whole)
      (tokenize (String.ofList ((written 0).text name ++ woven name written 0 whole))) := by
  obtain ⟨result, becomes, tokensEq⟩ := tokenize_woven isName fitting reads
  rw [tokensEq]
  exact inserted_put isName (Everywhere.here fitting) (ne_label_of_fitting fitting) becomes reads
    (becomes.inserted isName fitting complete reads) 0

end Whole

end Chunk

end Requalify
