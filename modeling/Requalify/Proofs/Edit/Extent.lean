import Requalify.Proofs.Edit.Landmark
import Requalify.Proofs.Token.Segments

/-!
How far using-statements reach. The semicolon of a statement is looked for in the text, while the
statement itself has been read from tokens. Both agree on where it ends, and what lies in between belongs
to no other statement and to no mention of a name.
-/

namespace Requalify

/-- Behind a token stands the next one. -/
theorem find?_behind {text : String} {last : Token} {behind : List Token}
    (within : last :: behind <:+ tokenize text) :
    (tokenize text).find? (fun token => last.stop ≤ token.start) = behind.head? := by
  have placed := tokenize_placed within
  obtain ⟨passed, parts⟩ := within
  have ordered := tokenize_pairwise text
  rw [← parts] at ordered ⊢
  have before : passed.find? (fun token => last.stop ≤ token.start) = none := by
    refine List.find?_eq_none.mpr fun token member => ?_
    have ends : token.stop ≤ last.start :=
      (List.pairwise_append.mp ordered).2.2 token member last List.mem_cons_self
    have covers := placed.start_lt_stop
    have begins : token.start ≤ token.stop := Nat.le_add_right _ _
    simp only [decide_eq_true_eq]
    omega
  have here : ¬last.stop ≤ last.start := Nat.not_le_of_lt placed.start_lt_stop
  rw [List.find?_append, before, Option.none_or, List.find?_cons_of_neg (by simpa using here)]
  cases behind with
  | nil => rfl
  | cons next others =>
      exact List.find?_cons_of_pos (by simpa using placed.stop_le List.mem_cons_self)

namespace Footprint

variable {text : String} {print : Footprint} (within : print.tokens <:+ tokenize text)

include within

/-- A landmark covers its tokens. -/
theorem covers_token {token : Token} (member : token ∈ print.front ++ [print.last]) :
    print.first.start ≤ token.start ∧ token.start ≤ print.last.start := by
  have ordered := (tokenize_pairwise text).sublist within.sublist
  obtain ⟨rest, tokens⟩ := print.tokens_eq_cons
  have known : token ∈ print.first :: rest := by
    rw [← tokens, Footprint.tokens, List.append_cons]
    exact List.mem_append_left _ member
  rw [tokens] at ordered
  constructor
  · rcases List.mem_cons.mp known with rfl | later
    · exact Nat.le_refl _
    · have ends := (List.pairwise_cons.mp ordered).1 token later
      exact Nat.le_trans (Nat.le_add_right _ _) ends
  · rcases List.mem_append.mp member with inFront | isLast
    · exact Nat.le_trans (Nat.le_add_right _ _) (front_stop_le within inFront)
    · rw [List.mem_singleton.mp isLast]

end Footprint

open Chunk in
/-- The semicolon is found just if it is the next token and no preprocessor line comes before it. -/
theorem UsingStatement.extent?_isSome {text : String} {statement : UsingStatement} {last : Token}
    {behind : List Token} (within : last :: behind <:+ tokenize text)
    (stop : statement.stop = last.stop) :
    (statement.extent? text).isSome = true ↔
      ∃ token ∈ behind.head?, token.isPunctuator ";" = true ∧
        ∀ line ∈ directives text, ¬(statement.stop ≤ line.start ∧ line.stop ≤ token.start) := by
  obtain ⟨whole, parts, reads⟩ := exists_reads true text.toList
  obtain ⟨passed, tokensEq⟩ := within
  rw [tokenize_of_reads parts reads] at tokensEq
  obtain ⟨before, chunk, back, rfl, -, lexeme, start, rfl⟩ := exists_split tokensEq.symm
  have size : Text.byteLength (flatten (before ++ [chunk])) = statement.stop := by
    simp [stop, Token.stop, lexeme, start]
  rw [List.append_cons] at parts reads
  rw [directives_of_reads parts reads, directives_append, size, Nat.zero_add, ← stop,
    extent?_isSome_of_reads (by rw [← parts, flatten_append]) size.symm (reads_append.mp reads).2]
  refine exists_congr fun token => and_congr_right fun _ => and_congr_right fun _ => ?_
  constructor
  · rintro alone line member ⟨from_, upTo⟩
    rcases List.mem_append.mp member with inFront | inBack
    · have bounds := mem_directives inFront
      omega
    · exact alone line inBack upTo
  · intro alone line member upTo
    exact alone line (List.mem_append_right _ member) ⟨(mem_directives member).1, upTo⟩

/-- A statement with its semicolon reaches to the limit of its landmark. -/
theorem Footprint.extent_of_describes {text : String} {print : Footprint}
    (within : print.tokens <:+ tokenize text) {entry : ScopedUsing}
    (describes : print.Describes (.statement entry)) {extent : UsingExtent}
    (found : entry.statement.extent? text = some extent) :
    (extent.statement.start = print.first.start ∧ extent.statement.stop = print.limit) ∧
    (∃ semicolon ∈ print.behind.head?, print.limit = semicolon.stop) ∧
    (extent.target.start = entry.statement.targetStart ∧ extent.target.stop = entry.statement.stop) ∧
    extent.statement.start ≤ extent.target.start ∧ extent.target.stop ≤ extent.statement.stop := by
  obtain ⟨-, start, stop, first, inTarget, targetStart⟩ := describes
  obtain ⟨semicolon, others, behind, isSemicolon, extentEq, targetEq⟩ :=
    UsingStatement.extent?_eq_some (last_placed within) stop found
  have limit := limit_of_punctuator behind (Token.kind_of_isPunctuator isSemicolon)
  have reaches := last_stop_le within
  have lastEnds : print.last.start ≤ print.last.stop := Nat.le_add_right _ _
  obtain ⟨from_, upTo⟩ := covers_token within inTarget
  rw [Span.between_of_le (by omega)] at extentEq targetEq
  rw [extentEq, targetEq, behind]
  simp only [start, stop, targetStart, limit]
  refine ⟨⟨trivial, trivial⟩, ⟨semicolon, rfl, rfl⟩, ⟨trivial, trivial⟩, from_, ?_⟩
  rw [← limit]
  exact reaches

namespace Outline

variable {text : String} {log : List Footprint}

namespace Trail

variable (trail : (ofText text).Trail (tokenize text) log)

include trail

/-- Two landmarks of one file do not meet, not even with the punctuators behind them. -/
theorem apart {left right : Footprint} (inLog : left ∈ log) (inLog' : right ∈ log)
    (different : left ≠ right) :
    left.limit ≤ right.first.start ∨ right.limit ≤ left.first.start := by
  let Apart (left right : Footprint) : Prop :=
    left.limit ≤ right.first.start ∨ right.limit ≤ left.first.start
  have symmetric : Std.Symm Apart := ⟨fun _ _ => Or.symm⟩
  have apart : log.Pairwise Apart := trail.ordered.imp_of_mem fun inLog inLog' follows =>
    .inl (Footprint.limit_le_of_follows (trail.within _ inLog) (trail.valid _ inLog') follows)
  exact apart.forall inLog inLog' different

theorem exists_statement {entry : ScopedUsing} (recorded : entry ∈ (ofText text).usings) :
    ∃ print ∈ log, print.landmark = .statement entry ∧ print.Describes (.statement entry) := by
  obtain ⟨print, inLog, landmark⟩ :=
    List.mem_map.mp (trail.statements.subset (List.mem_map_of_mem recorded))
  exact ⟨print, inLog, landmark, landmark ▸ (trail.valid print inLog).describes⟩

theorem exists_mention {mention : Mention} (inFile : mention ∈ (ofText text).mentions) :
    ∃ print ∈ log, print.landmark = .mention mention ∧ mention.chain.Spelled print.front print.last := by
  obtain ⟨print, inLog, landmark⟩ :=
    List.mem_map.mp (trail.mentions.subset (List.mem_map_of_mem inFile))
  exact ⟨print, inLog, landmark, (landmark ▸ (trail.valid print inLog).describes :
    print.Describes (.mention mention))⟩

/-- The landmark of a statement covers its extent. -/
theorem extent_eq {print : Footprint} (inLog : print ∈ log) {entry : ScopedUsing}
    (landmark : print.landmark = .statement entry) {extent : UsingExtent}
    (found : entry.statement.extent? text = some extent) :
    extent.statement.start = print.first.start ∧ extent.statement.stop = print.limit :=
  (Footprint.extent_of_describes (trail.within print inLog)
    (landmark ▸ (trail.valid print inLog).describes) found).1

/-- Statements end before later ones begin. -/
theorem extents_ordered : (ofText text).usings.Pairwise fun first second =>
    ∀ extent ∈ first.statement.extent? text, ∀ extent' ∈ second.statement.extent? text,
      extent.statement.stop ≤ extent'.statement.start := by
  obtain ⟨prints, inLog, statements⟩ := List.sublist_map_iff.mp trail.statements
  let Ordered (left right : Landmark) : Prop := ∀ first second, left = .statement first →
    right = .statement second → ∀ extent ∈ first.statement.extent? text,
      ∀ extent' ∈ second.statement.extent? text, extent.statement.stop ≤ extent'.statement.start
  have ordered : prints.Pairwise fun left right => Ordered left.landmark right.landmark := by
    refine (trail.ordered.sublist inLog).imp_of_mem ?_
    intro left right member member' follows first second isFirst isSecond extent found extent' found'
    rw [(trail.extent_eq (inLog.subset member) isFirst found).2,
      (trail.extent_eq (inLog.subset member') isSecond found').1]
    exact Footprint.limit_le_of_follows (trail.within _ (inLog.subset member))
      (trail.valid _ (inLog.subset member')) follows
  have landmarks : ((ofText text).usings.map Landmark.statement).Pairwise Ordered := by
    rw [statements]
    exact List.pairwise_map.mpr ordered
  exact (List.pairwise_map.mp landmarks).imp fun ordered => ordered _ _ rfl rfl

end Trail

/-- Where using-statements end, and what they hold. -/
theorem using_extents (text : String) :
    (∀ entry ∈ (ofText text).usings,
      let next := (tokenize text).find? fun token => entry.statement.stop ≤ token.start
      ((entry.statement.extent? text).isSome = true ↔
        ∃ token ∈ next, token.isPunctuator ";" = true ∧
          ∀ line ∈ directives text, ¬(entry.statement.stop ≤ line.start ∧ line.stop ≤ token.start)) ∧
      ∀ extent ∈ entry.statement.extent? text,
        (∃ token ∈ next, extent.statement.start = entry.statement.start ∧
          extent.statement.stop = token.stop) ∧
        extent.target.start = entry.statement.targetStart ∧ extent.target.stop = entry.statement.stop ∧
        extent.statement.start ≤ extent.target.start ∧ extent.target.stop ≤ extent.statement.stop ∧
        ∀ mention ∈ (ofText text).mentions,
          mention.chain.stop ≤ extent.statement.start ∨ extent.statement.stop ≤ mention.chain.start) ∧
    (ofText text).usings.Pairwise fun first second =>
      ∀ extent ∈ first.statement.extent? text, ∀ extent' ∈ second.statement.extent? text,
        extent.statement.stop ≤ extent'.statement.start := by
  obtain ⟨log, trail⟩ := ofText_trail text
  refine ⟨fun entry recorded => ?_, trail.extents_ordered⟩
  intro next
  obtain ⟨print, inLog, landmark, describes⟩ := trail.exists_statement recorded
  have within := trail.within print inLog
  have lastWithin : print.last :: print.behind <:+ tokenize text :=
    (List.suffix_append print.front _).trans within
  obtain ⟨-, start, stop, -⟩ := id describes
  have nextEq : next = print.behind.head? := by
    rw [← find?_behind lastWithin, ← stop]
  refine ⟨nextEq ▸ UsingStatement.extent?_isSome lastWithin stop, fun extent found => ?_⟩
  obtain ⟨⟨from_, upTo⟩, ⟨semicolon, isNext, limit⟩, ⟨targetStart, targetStop⟩, target⟩ :=
    Footprint.extent_of_describes within describes found
  refine ⟨⟨semicolon, nextEq ▸ isNext, from_.trans start.symm, upTo.trans limit⟩, targetStart,
    targetStop, target.1, target.2, fun mention inFile => ?_⟩
  obtain ⟨print', inLog', landmark', spelled⟩ := trail.exists_mention inFile
  have ends : mention.chain.stop = print'.last.stop := congrArg (·.span.stop) spelled.name
  have reaches := Footprint.last_stop_le (trail.within print' inLog')
  have apart := trail.apart inLog' inLog fun same => by simp [← same, landmark'] at landmark
  rw [from_, upTo, ends, Footprint.start_of_spelled spelled]
  omega

set_option maxRecDepth 100000 in
/-- A comment may stand in front of the semicolon, but no preprocessor line. -/
theorem using_extents_lines :
    let text := "using namespace std /* all */ ;\nusing namespace chrono\n#line 2\n;"
    let first : ScopedUsing := ⟨⟨.directive, 0, 16, 19⟩, 0, false, ⟨["std"]⟩, none⟩
    let second : ScopedUsing := ⟨⟨.directive, 32, 48, 54⟩, 0, false, ⟨["chrono"]⟩, none⟩
    (ofText text).usings = [first, second] ∧ (first.statement.extent? text).isSome = true ∧
      (second.statement.extent? text).isSome = false := by
  intro text first second
  have usings : (ofText text).usings = [first, second] := by decide +kernel
  have semicolons : (∃ token ∈ (tokenize text).find? fun token => first.statement.stop ≤ token.start,
        token.isPunctuator ";" = true ∧ ∀ line ∈ directives text,
          ¬(first.statement.stop ≤ line.start ∧ line.stop ≤ token.start)) ∧
      ¬∃ token ∈ (tokenize text).find? fun token => second.statement.stop ≤ token.start,
        token.isPunctuator ";" = true ∧ ∀ line ∈ directives text,
          ¬(second.statement.stop ≤ line.start ∧ line.stop ≤ token.start) := by
    decide +kernel
  have recorded : first ∈ (ofText text).usings ∧ second ∈ (ofText text).usings := by simp [usings]
  have ends := (using_extents text).1
  refine ⟨usings, (ends first recorded.1).1.mpr semicolons.1, ?_⟩
  exact Bool.eq_false_iff.mpr ((ends second recorded.2).1.not.mpr semicolons.2)

end Outline

end Requalify
