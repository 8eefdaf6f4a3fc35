import Requalify.Proofs.Diff.Preview
import Requalify.Proofs.Diff.Reading

/-!
The hunks of a diff. A text is divided into lines that stay and the lines of the hunks, and what the diff shows
is the text with the other lines of each hunk in their place. The numbers in a hunk name its lines in the text.
No text is cut inside a character and no number falls below zero unless this happens where the patches of a
block are applied to its lines.
-/

namespace Requalify.LineDiff

open Text (byteLength encoded splitAt?)

/-! The hunks, computed so that the computation can fail. -/

def difference? (left right : Nat) : Option Nat :=
  if right ≤ left then some (left - right) else none

def natural? (number : Int) : Option Nat :=
  if 0 ≤ number then some number.toNat else none

/-- The number for `count` lines of which the first would have the number `first`. -/
def lineNumber? (first count : Nat) : Option Nat :=
  if count = 0 then difference? first 1 else some first

def linesOf? (text : List Char) (block : Block) : Option (List Char) := do
  let _ ← difference? block.stop block.start
  Text.slice? text (Span.between block.start block.stop)

def editedLines? (block : Block) (old : List Char) : Option (List Char) :=
  block.patches.foldr
    (fun patch lines => do
      let start ← difference? patch.offset block.start
      Text.replace? (← lines) (Span.between start (start + patch.length)) patch.text.toList)
    (some old)

def hunkOf? (text : List Char) (growth : Int) (block : Block) : Option Hunk := do
  let old ← linesOf? text block
  let new ← editedLines? block old
  let before ← Text.slice? text (Span.between 0 block.start)
  let first := before.count '\n' + 1
  let newFirst ← natural? (first + growth)
  let oldStart ← lineNumber? first (lineCount old)
  let newStart ← lineNumber? newFirst (lineCount new)
  return ⟨oldStart, lineCount old, newStart, lineCount new, old, new⟩

def hunksFrom? (text : List Char) (growth : Int) : List Block → Option (List Hunk)
  | [] => some []
  | block :: rest => do
      let hunk ← hunkOf? text growth block
      let hunks ← hunksFrom? text (growth + hunk.newCount - hunk.oldCount) rest
      return hunk :: hunks

/-- Nothing if a text were cut inside a character or out of its bounds, or a number fell below zero. -/
def hunks? (text : String) (patches : List Patch) : Option (List Hunk) :=
  hunksFrom? text.toList 0 (blocks (Text.bytes text) patches)

theorem difference?_eq {left right : Nat} (ordered : right ≤ left) :
    difference? left right = some (left - right) :=
  if_pos ordered

theorem difference?_eq_some {left right difference : Nat}
    (result : difference? left right = some difference) : left - right = difference := by
  rw [difference?] at result
  split at result
  · exact Option.some.inj result
  · simp at result

theorem natural?_eq_some {number : Int} {natural : Nat} (result : natural? number = some natural) :
    number.toNat = natural := by
  rw [natural?] at result
  split at result
  · exact Option.some.inj result
  · simp at result

theorem lineNumber?_eq_some {first count number : Nat} (result : lineNumber? first count = some number) :
    (if count = 0 then first - 1 else first) = number := by
  rw [lineNumber?] at result
  split at result
  next empty => rw [if_pos empty, difference?_eq_some result]
  next filled => rw [if_neg filled, Option.some.inj result]

theorem isSome_lineNumber? {first : Nat} (positive : 1 ≤ first) (count : Nat) :
    ∃ number, lineNumber? first count = some number := by
  rw [lineNumber?]
  split
  · exact ⟨_, difference?_eq positive⟩
  · exact ⟨_, rfl⟩

theorem replace_of_replace? {text replacement replaced : List Char} {span : Span}
    (result : Text.replace? text span replacement = some replaced) :
    Text.replace text span replacement = replaced := by
  simp only [Text.replace?, Option.bind_eq_bind, Option.bind_eq_some_iff] at result
  obtain ⟨⟨before, rest⟩, outer, ⟨removed, after⟩, inner, same⟩ := result
  simp only [Text.replace, outer, inner]
  exact Option.some.inj same

theorem editedLines_of_editedLines? {block : Block} {old new : List Char}
    (result : editedLines? block old = some new) : editedLines block old = new := by
  obtain ⟨start, stop, patches⟩ := block
  rw [editedLines, List.foldl_reverse]
  rw [editedLines?] at result
  dsimp only at result ⊢
  induction patches generalizing new with
  | nil => exact Option.some.inj result
  | cons patch patches ih =>
      simp only [List.foldr_cons, Option.bind_eq_bind, Option.bind_eq_some_iff] at result
      obtain ⟨place, isPlace, lines, inner, replaced⟩ := result
      rw [List.foldr_cons, ih inner, difference?_eq_some isPlace]
      exact replace_of_replace? replaced

theorem hunkOf_of_hunkOf? {text : List Char} {growth : Int} {block : Block} {hunk : Hunk}
    (result : hunkOf? text growth block = some hunk) : hunkOf text growth block = hunk := by
  simp only [hunkOf?, linesOf?, Option.bind_eq_bind, Option.bind_eq_some_iff] at result
  obtain ⟨old, ⟨size, -, isOld⟩, new, isNew, before, isBefore, newFirst, isNewFirst, oldStart, isOldStart,
    newStart, isNewStart, same⟩ := result
  obtain rfl := Option.some.inj same
  have oldLines : linesOf text block = old := by rw [linesOf, isOld, Option.getD_some]
  have newLines := editedLines_of_editedLines? isNew
  simp only [hunkOf, oldLines, newLines, isBefore, Option.getD_some, natural?_eq_some isNewFirst,
    lineNumber?_eq_some isOldStart, lineNumber?_eq_some isNewStart]

theorem hunksFrom_of_hunksFrom? {text : List Char} {growth : Int} {blocks : List Block}
    {hunks : List Hunk} (result : hunksFrom? text growth blocks = some hunks) :
    hunksFrom text growth blocks = hunks := by
  induction blocks generalizing growth hunks with
  | nil => exact Option.some.inj result
  | cons block rest ih =>
      simp only [hunksFrom?, Option.bind_eq_bind, Option.bind_eq_some_iff] at result
      obtain ⟨hunk, isHunk, others, areOthers, same⟩ := result
      obtain rfl := Option.some.inj same
      rw [hunksFrom, hunkOf_of_hunkOf? isHunk, ih areOthers]

/-! The lines that stay and the hunks. -/

inductive Side where
  | old
  | new

def Hunk.text (hunk : Hunk) : Side → List Char
  | .old => hunk.old
  | .new => hunk.new

def Hunk.start (hunk : Hunk) : Side → Nat
  | .old => hunk.oldStart
  | .new => hunk.newStart

def Hunk.count (hunk : Hunk) : Side → Nat
  | .old => hunk.oldCount
  | .new => hunk.newCount

/-- Lines that stay, and the hunk behind them. -/
structure Stretch where
  kept : List Char
  hunk : Hunk

def assembled (side : Side) (stretches : List Stretch) : List Char :=
  stretches.flatMap fun stretch => stretch.kept ++ stretch.hunk.text side

theorem assembled_cons (side : Side) (stretch : Stretch) (rest : List Stretch) :
    assembled side (stretch :: rest) =
      stretch.kept ++ stretch.hunk.text side ++ assembled side rest := rfl

def Side.mark : Side → Char
  | .old => '-'
  | .new => '+'

/-- The marker stands behind a line of a hunk only if nothing follows on that side. -/
def MarkedAtEnd (side : Side) (tail : List Char) : List Stretch → Prop
  | [] => True
  | stretch :: rest =>
      (marker ∈ lines (markedLines side.mark (stretch.hunk.text side)) → assembled side rest ++ tail = []) ∧
      MarkedAtEnd side tail rest

theorem Side.marker_mem_iff (side : Side) {text : List Char} :
    marker ∈ lines (markedLines side.mark text) ↔ endsOpen text = true := by
  cases side with
  | old => exact LineDiff.marker_mem_iff (by decide) (by decide)
  | new => exact LineDiff.marker_mem_iff (by decide) (by decide)

/-- Behind `front`, `part` is the `count` lines of the text from line `start` on. No lines stand behind line
`start`. -/
structure Names (text front part : List Char) (start count : Nat) : Prop where
  whole : ∃ back, text = front ++ part ++ back ∧ lines text = lines front ++ lines part ++ lines back
  isCount : count = (lines part).length
  isStart : start = (lines front).length + if count = 0 then 0 else 1

/-- The numbers of each hunk name its lines on one side. -/
def Named (side : Side) (text front : List Char) : List Stretch → Prop
  | [] => True
  | stretch :: rest =>
      Names text (front ++ stretch.kept) (stretch.hunk.text side) (stretch.hunk.start side)
        (stretch.hunk.count side) ∧
      Named side text (front ++ stretch.kept ++ stretch.hunk.text side) rest

theorem names_of_closed {front part back : List Char} {start count : Nat}
    (closed : endsOpen front = false) (ends : endsOpen part = false ∨ back = [])
    (isCount : count = lineCount part) (isStart : start = lineCount front + if count = 0 then 0 else 1) :
    Names (front ++ part ++ back) front part start count := by
  refine ⟨⟨back, rfl, ?_⟩, ?_, ?_⟩
  · rcases ends with closedPart | rfl
    · have closedFront : endsOpen (front ++ part) = false := by
        rw [endsOpen_append_of_closed closed, closedPart]
      rw [lines_append closedFront, lines_append closed]
    · rw [List.append_nil, lines_append closed, lines_nil, List.append_nil]
  · rw [length_lines, isCount]
  · rw [length_lines, isStart]

def stretchesFrom (text : List Char) (growth : Int) (start : Nat) : List Block → List Stretch
  | [] => []
  | block :: rest =>
      let hunk := hunkOf text growth block
      ⟨Text.between text start block.start, hunk⟩ ::
        stretchesFrom text (growth + hunk.newCount - hunk.oldCount) block.stop rest

/-- The lines that stay behind the last block. -/
def tailFrom (text : List Char) (start : Nat) : List Block → List Char
  | [] => Text.between text start (byteLength text)
  | block :: rest => tailFrom text block.stop rest

theorem hunksFrom_eq (text : List Char) (growth : Int) (start : Nat) (blocks : List Block) :
    hunksFrom text growth blocks = (stretchesFrom text growth start blocks).map (·.hunk) := by
  induction blocks generalizing growth start with
  | nil => rfl
  | cons block rest ih => exact congrArg (hunkOf text growth block :: ·) (ih _ _)

/-- Where the lines of a block stand. -/
structure Cut (text front : List Char) (block : Block) (kept old back : List Char) : Prop where
  whole : text = front ++ (kept ++ (old ++ back))
  start : byteLength front + byteLength kept = block.start
  stop : block.start + byteLength old = block.stop
  closed : endsOpen (front ++ kept) = false
  ends : endsOpen old = false ∨ back = []

theorem Block.Sound.cut {text front rest : List Char} {block : Block} (sound : block.Sound text)
    (whole : text = front ++ rest) (behind : byteLength front ≤ block.start) :
    ∃ kept old back, rest = kept ++ (old ++ back) ∧ Cut text front block kept old back := by
  obtain ⟨kept, old, back, rfl, size, size'⟩ :=
    Text.exists_parts whole sound.start.boundary sound.stop.boundary behind sound.start_le_stop
  have closed : endsOpen (front ++ kept) = false := by
    obtain ⟨before, after, parts, place, closed⟩ := sound.start
    have same : (front ++ kept) ++ (old ++ back) = before ++ after := by simp [← parts, whole]
    obtain ⟨rfl, -⟩ := Text.append_inj same (by rw [Text.byteLength_append]; omega)
    exact closed
  refine ⟨kept, old, back, rfl, whole, by omega, by omega, closed, ?_⟩
  obtain ⟨before, after, parts, place, ends⟩ := sound.stop
  have same : (front ++ kept ++ old) ++ back = before ++ after := by simp [← parts, whole]
  obtain ⟨rfl, rfl⟩ := Text.append_inj same (by simp only [Text.byteLength_append]; omega)
  exact ends.imp_left fun whole => by rwa [endsOpen_append_of_closed closed] at whole

section Cut

variable {text front kept old back : List Char} {block : Block} (cut : Cut text front block kept old back)
  (growth : Int)

include cut

theorem Cut.reached : byteLength (front ++ kept ++ old) = block.stop := by
  rw [Text.byteLength_append, Text.byteLength_append, cut.start, cut.stop]

theorem Cut.linesOf? : linesOf? text block = some old := by
  have ordered : block.start ≤ block.stop := cut.stop ▸ Nat.le_add_right _ _
  have slice : Text.slice? (front ++ kept ++ (old ++ back)) (Span.between block.start block.stop) =
      some old := by
    rw [Span.between_of_le ordered]
    exact Text.slice?_of_parts back (by rw [Text.byteLength_append]; exact cut.start)
      (by rw [Text.byteLength_append, cut.start]; exact cut.stop)
  rw [LineDiff.linesOf?, difference?_eq ordered, cut.whole, ← List.append_assoc]
  exact slice

theorem Cut.linesOf : linesOf text block = old := by
  have checked := cut.linesOf?
  simp only [LineDiff.linesOf?, Option.bind_eq_bind, Option.bind_eq_some_iff] at checked
  obtain ⟨-, -, slice⟩ := checked
  rw [LineDiff.linesOf, slice, Option.getD_some]

theorem Cut.before : Text.slice? text (Span.between 0 block.start) = some (front ++ kept) := by
  have parts : text = [] ++ ((front ++ kept) ++ (old ++ back)) := by simp [cut.whole]
  rw [Span.between_of_le (Nat.zero_le _), parts]
  refine Text.slice?_of_parts (old ++ back) rfl ?_
  rw [Text.byteLength_append, Text.byteLength_nil, Nat.zero_add]
  exact cut.start

theorem Cut.between : Text.between text (byteLength front) block.start = kept := by
  rw [cut.whole]
  exact Text.between_of_parts (old ++ back) rfl cut.start

theorem Cut.count : (front ++ kept).count '\n' = lineCount (front ++ kept) :=
  (lineCount_of_closed cut.closed).symm

theorem Cut.hunkOf : hunkOf text growth block =
    let new := editedLines block old
    let newFirst := (lineCount (front ++ kept) + 1 + growth).toNat
    { oldStart := lineCount (front ++ kept) + if lineCount old = 0 then 0 else 1
      oldCount := lineCount old
      newStart := if lineCount new = 0 then newFirst - 1 else newFirst
      newCount := lineCount new
      old := old
      new := new } := by
  simp only [LineDiff.hunkOf, cut.linesOf, cut.before, Option.getD_some, cut.count]
  congr 1
  split <;> rfl

theorem Cut.oldLines : (LineDiff.hunkOf text growth block).old = old := by rw [cut.hunkOf]

theorem Cut.newLines : (LineDiff.hunkOf text growth block).new = editedLines block old := by
  rw [cut.hunkOf]

theorem Cut.oldCount : (LineDiff.hunkOf text growth block).oldCount = lineCount old := by
  rw [cut.hunkOf]

theorem Cut.newCount : (LineDiff.hunkOf text growth block).newCount =
    lineCount (LineDiff.hunkOf text growth block).new := by
  rw [cut.hunkOf]

theorem Cut.oldStart : (LineDiff.hunkOf text growth block).oldStart =
    lineCount (front ++ kept) + if lineCount old = 0 then 0 else 1 := by
  rw [cut.hunkOf]

theorem Cut.newStart {shown : Nat} (lines : (lineCount (front ++ kept) + growth : Int) = shown) :
    (LineDiff.hunkOf text growth block).newStart =
      shown + if lineCount (LineDiff.hunkOf text growth block).new = 0 then 0 else 1 := by
  have first : (lineCount (front ++ kept) + 1 + growth : Int).toNat = shown + 1 := by omega
  rw [cut.hunkOf]
  dsimp only
  rw [first]
  split <;> rfl

theorem Cut.hunkOf? (bounded : 0 ≤ growth + lineCount (front ++ kept)) :
    hunkOf? text growth block =
      (editedLines? block old).map fun _ => LineDiff.hunkOf text growth block := by
  cases result : LineDiff.hunkOf? text growth block with
  | some hunk =>
      have total := hunkOf_of_hunkOf? result
      simp only [LineDiff.hunkOf?, cut.linesOf?, Option.bind_eq_bind, Option.bind_some,
        Option.bind_eq_some_iff] at result
      obtain ⟨new, isNew, -⟩ := result
      rw [isNew, total]
      rfl
  | none =>
      cases isNew : editedLines? block old with
      | none => rfl
      | some new =>
          have natural : natural? (((front ++ kept).count '\n' + 1 : Nat) + growth) =
              some (((front ++ kept).count '\n' + 1 : Nat) + growth).toNat := by
            rw [cut.count]
            exact if_pos (by omega)
          have positive : 1 ≤ (((front ++ kept).count '\n' + 1 : Nat) + growth).toNat := by
            rw [cut.count]
            omega
          obtain ⟨oldStart, isOldStart⟩ := @isSome_lineNumber? ((front ++ kept).count '\n' + 1)
            (Nat.le_add_left 1 _) (lineCount old)
          obtain ⟨newStart, isNewStart⟩ := isSome_lineNumber? positive (lineCount new)
          simp only [LineDiff.hunkOf?, cut.linesOf?, cut.before, isNew, natural, isOldStart, isNewStart,
            Option.bind_eq_bind, Option.bind_some] at result
          simp at result

end Cut

/-- The lines of a block, of which the patches taken last have passed the first part. -/
theorem foldr_preview {text before passed rest back : List Char} {base start : Nat}
    {patches : List Patch} (whole : text = before ++ passed ++ (rest ++ back))
    (origin : byteLength before = base) (place : base + byteLength passed = start)
    (fits : ∀ patch ∈ patches, patch.Fits text) (later : ∀ patch ∈ patches, start ≤ patch.offset)
    (inside : ∀ patch ∈ patches, patch.span.stop ≤ start + byteLength rest)
    (sorted : patches.Pairwise fun first second => first.offset ≤ second.offset) :
    patches.foldr
      (fun patch lines => do
        let start ← difference? patch.offset base
        Text.replace? (← lines) (Span.between start (start + patch.length)) patch.text.toList)
      (some (passed ++ rest)) = (preview? rest start patches).map (passed ++ ·) := by
  induction patches generalizing passed rest start with
  | nil => rfl
  | cons patch patches ih =>
      obtain ⟨fitsFirst, fits⟩ := List.forall_mem_cons.mp fits
      obtain ⟨here, -⟩ := List.forall_mem_cons.mp later
      obtain ⟨insideFirst, inside⟩ := List.forall_mem_cons.mp inside
      obtain ⟨below, sorted⟩ := List.pairwise_cons.mp sorted
      have span : patch.span.stop = patch.offset + patch.length := rfl
      have size : byteLength (before ++ passed) = start := by
        rw [Text.byteLength_append]
        omega
      obtain ⟨kept, rest, rfl, width⟩ := Text.exists_split whole fitsFirst.start (by omega) (by omega)
      rw [Text.byteLength_append] at inside insideFirst
      have reach : start + (byteLength kept + byteLength rest) = patch.offset + byteLength rest := by
        omega
      rw [reach] at inside
      have further := @ih (passed ++ kept) rest patch.offset (by simp [whole])
        (by rw [Text.byteLength_append]; omega) fits below inside sorted
      have front : byteLength (passed ++ kept) = patch.offset - base := by
        rw [Text.byteLength_append]
        omega
      have ordered : base ≤ patch.offset := by omega
      rw [List.foldr_cons, ← List.append_assoc, further, preview?_cons (size ▸ width),
        difference?_eq ordered]
      cases preview? rest patch.offset patches with
      | none => rfl
      | some shown =>
          have first : splitAt? (passed ++ kept ++ shown) (patch.offset - base) =
              some (passed ++ kept, shown) := Text.splitAt?_eq_some_iff.mpr ⟨rfl, front⟩
          have length : (Span.between (patch.offset - base)
              (patch.offset - base + patch.length)).length = patch.length := by
            rw [Span.between_of_le (Nat.le_add_right _ _)]
            exact Nat.add_sub_cancel_left _ _
          simp only [Option.map_some, Option.bind_eq_bind, Option.bind_some, Text.replace?, length]
          rw [Span.between, first]
          simp only [Option.bind_some]
          cases splitAt? shown patch.length <;> simp

theorem Cut.preview? {text front kept old back : List Char} {block : Block}
    (cut : Cut text front block kept old back) (sound : block.Sound text)
    (follows : block.patches.Pairwise Follows) {others : List Patch}
    (beyond : ∀ patch ∈ others, block.stop ≤ patch.offset) :
    preview? (kept ++ (old ++ back)) (byteLength front) (block.patches ++ others) = (do
      let new ← editedLines? block old
      let after ← preview? back block.stop others
      return kept ++ (new ++ after)) := by
  have whole : text = (front ++ kept) ++ (old ++ back) := by simp [cut.whole]
  have size : byteLength (front ++ kept) = block.start := by
    rw [Text.byteLength_append]
    exact cut.start
  have later : ∀ patch ∈ block.patches, block.start ≤ patch.offset := fun patch member =>
    (sound.inside patch member).1
  have inside : ∀ patch ∈ block.patches, patch.span.stop ≤ block.start + byteLength old :=
    fun patch member => cut.stop ▸ sound.stop_le member
  have edited : editedLines? block old = LineDiff.preview? old block.start block.patches := by
    have shown := @foldr_preview text (front ++ kept) [] old back block.start block.start block.patches
      (by rw [List.append_nil]; exact whole) size rfl sound.fits later inside (follows.imp And.left)
    simpa [editedLines?] using shown
  have ahead : ∀ patch ∈ (block.patches ++ others).head?,
      byteLength front + byteLength kept ≤ patch.offset := by
    intro patch isHead
    rw [cut.start]
    rcases List.mem_append.mp (List.mem_of_mem_head? isHead) with member | member
    · exact later patch member
    · exact Nat.le_trans sound.start_le_stop (beyond patch member)
  have divided := preview?_append back others whole size sound.fits later inside follows
    (cut.stop ▸ beyond)
  rw [preview?_front ahead, cut.start, divided, cut.stop, ← edited]
  cases editedLines? block old with
  | none => rfl
  | some new => cases LineDiff.preview? back block.stop others <;> rfl

/-- Blocks cut `rest`, what is behind `front` in a text, one behind the other. -/
inductive Cuts (text : List Char) : List Char → List Char → List Block → Prop where
  | done {front rest : List Char} (whole : text = front ++ rest) : Cuts text front rest []
  | next {front kept old back : List Char} {block : Block} {blocks : List Block}
      (here : block.Sound text) (cut : Cut text front block kept old back)
      (sound : ∀ later ∈ blocks, later.Sound text) (beyond : ∀ later ∈ blocks, block.stop ≤ later.start)
      (others : Cuts text (front ++ kept ++ old) back blocks) :
      Cuts text front (kept ++ (old ++ back)) (block :: blocks)

theorem cuts_of_sound {text front rest : List Char} {blocks : List Block} (whole : text = front ++ rest)
    (sound : ∀ block ∈ blocks, block.Sound text)
    (apart : blocks.Pairwise fun earlier later => earlier.stop ≤ later.start)
    (behind : ∀ block ∈ blocks, byteLength front ≤ block.start) : Cuts text front rest blocks := by
  induction blocks generalizing front rest with
  | nil => exact .done whole
  | cons block blocks ih =>
      obtain ⟨here, sound⟩ := List.forall_mem_cons.mp sound
      obtain ⟨beyond, apart⟩ := List.pairwise_cons.mp apart
      obtain ⟨first, -⟩ := List.forall_mem_cons.mp behind
      obtain ⟨kept, old, back, rfl, cut⟩ := here.cut whole first
      refine .next here cut sound beyond (ih (by simp [whole]) sound apart fun later member => ?_)
      exact cut.reached ▸ beyond later member

section Blocks

variable {text front rest : List Char} {blocks : List Block} (cuts : Cuts text front rest blocks)

include cuts

/-- The lines that stay and the old lines of the hunks are the text, its lines have the numbers that the hunks
give them, and only its last line is marked. -/
theorem named_old (growth : Int) :
    rest = assembled .old (stretchesFrom text growth (byteLength front) blocks) ++
        tailFrom text (byteLength front) blocks ∧
      Named .old text front (stretchesFrom text growth (byteLength front) blocks) ∧
      MarkedAtEnd .old (tailFrom text (byteLength front) blocks)
        (stretchesFrom text growth (byteLength front) blocks) := by
  -- `front` is the text up to the end of the last block; its end is the end of a line or of the text.
  induction cuts generalizing growth with
  | @done front rest whole =>
      have parts : text = front ++ (rest ++ []) := by simp [whole]
      have tail : tailFrom text (byteLength front) [] = rest := by
        rw [tailFrom, parts]
        exact Text.between_of_parts [] rfl (by simp)
      exact ⟨tail.symm, trivial, trivial⟩
  | @next front kept old back block blocks here cut sound beyond _ ih =>
      rw [stretchesFrom, tailFrom, cut.between]
      generalize growth + ((hunkOf text growth block).newCount : Int) -
        (hunkOf text growth block).oldCount = growth'
      obtain ⟨others, named, marked⟩ := ih growth'
      rw [cut.reached] at others named marked
      rw [assembled_cons, Named, MarkedAtEnd, Side.marker_mem_iff, Hunk.text, Hunk.start, Hunk.count,
        cut.oldLines, cut.oldStart, cut.oldCount, ← others]
      refine ⟨?_, ⟨?_, named⟩, fun isOpen => ?_, marked⟩
      · rw [List.append_assoc, List.append_assoc, ← others]
      · have parts : text = front ++ kept ++ old ++ back := by simp [cut.whole]
        rw [parts]
        exact names_of_closed cut.closed cut.ends rfl rfl
      · exact cut.ends.resolve_left (by simp [isOpen])

/-- The hunks can be computed if the patches can be applied from the last to the first, and the lines that stay
and the new lines of the hunks are what this gives. -/
theorem hunksFrom?_eq {growth : Int} (bounded : 0 ≤ growth + lineCount front)
    (follows : (blocks.flatMap (·.patches)).Pairwise Follows) :
    hunksFrom? text growth blocks =
        (preview? rest (byteLength front) (blocks.flatMap (·.patches))).map
          (fun _ => hunksFrom text growth blocks) ∧
      ∀ shown, preview? rest (byteLength front) (blocks.flatMap (·.patches)) = some shown →
        shown = assembled .new (stretchesFrom text growth (byteLength front) blocks) ++
          tailFrom text (byteLength front) blocks := by
  induction cuts generalizing growth with
  | @done front rest whole =>
      have tail := (named_old (.done whole) growth).1
      refine ⟨rfl, fun shown result => ?_⟩
      obtain rfl := Option.some.inj result
      exact tail
  | @next front kept old back block blocks here cut sound beyond _ ih =>
      rw [List.flatMap_cons] at follows ⊢
      obtain ⟨followsHere, follows, -⟩ := List.pairwise_append.mp follows
      have further := le_offset_of_sound sound beyond
      -- A hunk takes no more lines than stand in front of its end, so that no number falls below zero.
      have bounded' : 0 ≤ growth + lineCount (front ++ kept) := by
        have more := lineCount_le front kept
        omega
      have lines := lineCount_append cut.closed old
      obtain ⟨checked, total⟩ := @ih
        (growth + (hunkOf text growth block).newCount - (hunkOf text growth block).oldCount)
        (by rw [cut.oldCount]; omega) follows
      rw [cut.reached] at checked total
      rw [cut.preview? here followsHere further, hunksFrom?, cut.hunkOf? growth bounded', hunksFrom,
        stretchesFrom, tailFrom, cut.between, assembled_cons, Hunk.text, cut.newLines]
      cases result : editedLines? block old with
      | none => exact ⟨rfl, by simp⟩
      | some new =>
          have newLines := editedLines_of_editedLines? result
          simp only [Option.map_some, Option.bind_eq_bind, Option.bind_some, checked]
          cases others : preview? back block.stop (blocks.flatMap (·.patches)) with
          | none => exact ⟨rfl, by simp⟩
          | some after =>
              refine ⟨rfl, fun shown isShown => ?_⟩
              obtain rfl := Option.some.inj isShown
              rw [total after others, newLines, List.append_assoc, List.append_assoc]

end Blocks

end Requalify.LineDiff
