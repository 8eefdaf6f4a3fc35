import Requalify.Proofs.Outline.Writable
import Requalify.Proofs.Token.Chain

/-!
The tokens that the entries of an outline stand for. A mention, a using-statement and the keyword of an
anonymous namespace each belong to tokens that the step recording them takes, so no two of them share a
token, and every step leaves only tokens behind those of all entries recorded so far.
-/

namespace Requalify

/-- An entry of an outline that an edit can be made for. -/
inductive Landmark where
  | mention (mention : Mention)
  | statement (entry : ScopedUsing)
  | keyword (span : Span)

/-- A landmark with its tokens, which are those of `front` and then `last`. -/
structure Footprint where
  landmark : Landmark
  front : List Token
  last : Token
  behind : List Token

namespace Footprint

def first (print : Footprint) : Token :=
  print.front.head?.getD print.last

/-- The tokens of the landmark and all tokens behind them. -/
def tokens (print : Footprint) : List Token :=
  print.front ++ print.last :: print.behind

def Describes (print : Footprint) : Landmark → Prop
  | .mention mention => mention.chain.Spelled print.front print.last
  | .statement entry =>
      print.first.kind = .keyword ∧ entry.statement.start = print.first.start ∧
        entry.statement.stop = print.last.stop ∧
        ∃ token ∈ print.front ++ [print.last], entry.statement.targetStart = token.start
  | .keyword span =>
      span = print.first.span ∧
        ∃ next others, print.behind = next :: others ∧ next.kind = .punctuator

structure Valid (print : Footprint) : Prop where
  opens : print.first.kind ≠ .punctuator
  describes : print.Describes print.landmark

/-- `later` stands behind `earlier`, with no token in common. -/
def Follows (later earlier : Footprint) : Prop :=
  later.tokens <:+ earlier.behind

theorem tokens_eq_cons (print : Footprint) : ∃ rest, print.tokens = print.first :: rest := by
  unfold tokens first
  cases print.front with
  | nil => exact ⟨_, rfl⟩
  | cons token rest => exact ⟨_, rfl⟩

end Footprint

/-- The keyword that waits for the brace of its namespace. -/
def Opening.keywords : Option Opening → List Span
  | some (.anonymous keyword) => [keyword]
  | _ => []

namespace Draft

def keywords (draft : Draft) : List Span :=
  Opening.keywords draft.opening ++ draft.anonymousNamespaces

/-- The entries of the draft are among the landmarks, in the same order, and the names of its namespaces
can be written. -/
def Sound (draft : Draft) (landmarks : List Landmark) : Prop :=
  draft.Writable ∧ (draft.mentions.map .mention).Sublist landmarks ∧
    (draft.usings.map .statement).Sublist landmarks ∧
    (draft.keywords.map .keyword).Sublist landmarks

/-! Most steps add no landmark. -/

section Fields

variable (draft : Draft) (opening : Option Opening) (id : Nat) (kind : ScopeKind) (afterName : Bool)

@[simp]
theorem defineNamespaces_mentions : (draft.defineNamespaces opening).mentions = draft.mentions := by
  unfold defineNamespaces
  split <;> rfl

@[simp]
theorem defineNamespaces_usings : (draft.defineNamespaces opening).usings = draft.usings := by
  unfold defineNamespaces
  split <;> rfl

@[simp]
theorem defineNamespaces_anonymousNamespaces :
    (draft.defineNamespaces opening).anonymousNamespaces =
      Opening.keywords opening ++ draft.anonymousNamespaces := by
  unfold defineNamespaces Opening.keywords
  rcases opening with _ | (_ | _ | _ | _ | _) <;> rfl

@[simp]
theorem bindParked_mentions : (draft.bindParked id kind afterName).mentions = draft.mentions := by
  unfold bindParked
  split <;> rfl

@[simp]
theorem bindParked_usings : (draft.bindParked id kind afterName).usings = draft.usings := by
  unfold bindParked
  split <;> rfl

@[simp]
theorem bindParked_anonymousNamespaces :
    (draft.bindParked id kind afterName).anonymousNamespaces = draft.anonymousNamespaces := by
  unfold bindParked
  split <;> rfl

end Fields

namespace Sound

variable {draft : Draft} {landmarks : List Landmark} (sound : draft.Sound landmarks)

include sound

theorem setOpening {opening : Option Opening} (nothing : Opening.keywords opening = [])
    (named : Opening.Writable opening) : Sound { draft with opening := opening } landmarks := by
  obtain ⟨writable, mentions, statements, keywords⟩ := sound
  have fewer : (draft.anonymousNamespaces.map Landmark.keyword).Sublist
      (draft.keywords.map .keyword) := (List.sublist_append_right _ _).map _
  have now : Draft.keywords { draft with opening := opening } = draft.anonymousNamespaces := by
    simp [Draft.keywords, nothing]
  refine ⟨writable.setOpening named, mentions, statements, ?_⟩
  rw [now]
  exact fewer.trans keywords

theorem declare (name : NameToken) (kind : DeclarationKind) :
    (draft.declare name kind).Sound landmarks := by
  simp only [Draft.declare]
  split
  next => exact sound
  next =>
    split
    next => exact sound
    next => exact sound

theorem declareSingle (chain : NameChain) (kind : DeclarationKind) :
    Sound (if chain.isSingle then draft.declare chain.last kind else draft) landmarks := by
  split
  next => exact sound.declare chain.last kind
  next => exact sound

theorem declareEnumerator (name : NameToken) : (draft.declareEnumerator name).Sound landmarks := by
  simp only [Draft.declareEnumerator]
  split
  next =>
    split
    next => exact sound
    next => exact sound
  next => exact sound

theorem declareVariable (name : NameToken) (rest : List Token) :
    (draft.declareVariable name rest).Sound landmarks := by
  simp only [Draft.declareVariable]
  split
  next => exact sound
  next =>
    split
    next => exact sound.declare name .function
    next => exact sound.declare name .variable

/-- An opening brace takes over the keyword that has waited for it. -/
theorem openScope (brace : Token) (afterName : Bool) :
    (draft.openScope brace afterName).Sound landmarks := by
  have mentions : (draft.openScope brace afterName).mentions = draft.mentions := by
    simp [Draft.openScope]
  have usings : (draft.openScope brace afterName).usings = draft.usings := by
    simp [Draft.openScope]
  have keywords : (draft.openScope brace afterName).keywords = draft.keywords := by
    simp [Draft.openScope, Draft.keywords, Opening.keywords]
  rw [Draft.Sound, mentions, usings, keywords]
  exact ⟨sound.1.openScope brace afterName, sound.2⟩

theorem closeScope (brace : Token) : (draft.closeScope brace).Sound landmarks := by
  have free : Sound { draft with opening := none } landmarks := sound.setOpening rfl trivial
  refine ⟨sound.1.closeScope brace, ?_⟩
  unfold Draft.closeScope
  split
  next => exact free.2
  next => exact free.2

/-- The name of a type definition is no mention any more. -/
theorem finishTypedef (tokens : List Token) : (draft.finishTypedef tokens).Sound landmarks := by
  unfold Draft.finishTypedef
  split
  next => exact sound
  next token _ =>
    obtain ⟨writable, mentions, others⟩ := sound
    have fewer : Sound { draft with
        mentions := draft.mentions.filter (·.chain.start != token.start) } landmarks :=
      ⟨writable, (List.filter_sublist.map _).trans mentions, others⟩
    exact fewer.declare token.name .typeAlias

theorem endStatement (before : List Token) : (draft.endStatement before).Sound landmarks := by
  simp only [Draft.endStatement]
  split
  next =>
    have reset : Sound { draft with frame :=
        { draft.frame with typedefStart := none, declaring := none } } landmarks := sound
    split
    next offset _ =>
      exact (reset.finishTypedef (before.takeWhile fun token => offset < token.start)).setOpening rfl trivial
    next => exact reset.setOpening rfl trivial
  next => exact sound

end Sound

end Draft

end Requalify
