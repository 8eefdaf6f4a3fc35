import Requalify.Proofs.Diff.Applied

/-!
The new side of a diff. The numbers in its hunks name lines of the rewritten text, and the marker stands at the
end of it, unless a patch takes the terminator of a line of which something stays: what follows then stands in
the same line, and a hunk that ends there shows the line as the last one.
-/

namespace Requalify.LineDiff

open Patch (woven)
open Text (byteLength encoded)

/-- A patch takes a line terminator, an open line stands in front of it, and some text follows. -/
def Joins (text rewritten : List Char) (patches : List Patch) : Prop :=
  ∃ patch back before, patch :: back <:+ patches ∧
    rewritten = before ++ woven text patch.span.stop back ∧
    (Text.between text patch.offset patch.span.stop).getLast? = some '\n' ∧
    endsOpen before = true ∧ woven text patch.span.stop back ≠ []

/-- The later patch begins behind the offset of the other one, and where that one stops or behind it. -/
def Precedes (patch later : Patch) : Prop :=
  patch.offset < later.offset ∧ patch.span.stop ≤ later.offset

theorem Precedes.follows {patch later : Patch} (precedes : Precedes patch later) : Follows patch later :=
  ⟨Nat.le_of_lt precedes.1, .inl precedes.2⟩

theorem getLast?_of_closed {text : List Char} (closed : endsOpen text = false) (filled : text ≠ []) :
    text.getLast? = some '\n' := by
  obtain ⟨body, last, rfl⟩ := List.eq_nil_or_concat text |>.resolve_left filled
  rw [List.concat_eq_append, endsOpen_concat, bne_eq_false_iff_eq] at closed
  rw [List.concat_eq_append, List.getLast?_concat, closed]

theorem closed_of_getLast? {text : List Char} (last : text.getLast? = some '\n') :
    endsOpen text = false := by
  rw [endsOpen, last]
  rfl

theorem byteLength_pos {text : List Char} (filled : text ≠ []) : 0 < byteLength text := by
  obtain ⟨c, rest, rfl⟩ := List.exists_cons_of_ne_nil filled
  have positive := c.utf8Size_pos
  rw [Text.byteLength_cons]
  omega

theorem getLast?_between {text front back : List Char} {start : Nat} (whole : text = front ++ back)
    (closed : endsOpen front = false) (boundary : Text.isBoundary text start = true)
    (below : start < byteLength front) :
    (Text.between text start (byteLength front)).getLast? = some '\n' := by
  obtain ⟨first, part, rfl, size⟩ := Text.isBoundary_iff.mp
    (Text.isBoundary_of_append (whole ▸ boundary) (Nat.le_of_lt below))
  rw [Text.byteLength_append] at below ⊢
  have filled : part ≠ [] := by
    rintro rfl
    rw [Text.byteLength_nil] at below
    omega
  have between : Text.between text start (byteLength first + byteLength part) = part := by
    rw [whole, List.append_assoc]
    exact Text.between_of_parts back size (by omega)
  rw [endsOpen_append first filled] at closed
  rw [between]
  exact getLast?_of_closed closed filled

theorem lt_lineEnd {content : List UInt8} {offset : Nat} (inside : offset < content.length) :
    offset < Text.lineEnd content offset := by
  simp only [Text.lineEnd]
  omega

theorem cons_suffix_append_iff {patch : Patch} {back first second : List Patch} :
    patch :: back <:+ first ++ second ↔
      (∃ others, back = others ++ second ∧ patch :: others <:+ first) ∨ patch :: back <:+ second := by
  induction first with
  | nil => simp
  | cons next first ih =>
      rw [List.cons_append, List.suffix_cons_iff, ih, ← or_assoc]
      refine or_congr_left ?_
      constructor
      · rintro (same | ⟨others, rfl, suffix⟩)
        · obtain ⟨rfl, rfl⟩ := List.cons.inj same
          exact ⟨first, rfl, List.suffix_refl _⟩
        · exact ⟨others, rfl, suffix.trans (List.suffix_cons next first)⟩
      · rintro ⟨others, rfl, suffix⟩
        rcases List.suffix_cons_iff.mp suffix with same | suffix
        · obtain ⟨rfl, rfl⟩ := List.cons.inj same
          exact .inl rfl
        · exact .inr ⟨others, rfl, suffix⟩

section Block

variable {text front kept old back : List Char} {block : Block} {others : List Patch}
  (cut : Cut text front block kept old back) (sound : block.Sound text)
  (order : (block.patches ++ others).Pairwise Precedes) (fits : ∀ patch ∈ others, patch.Fits text)
  (beyond : ∀ patch ∈ others, block.stop ≤ patch.offset)

include cut sound order fits beyond

theorem Cut.woven_block :
    woven text (byteLength front) (block.patches ++ others) =
      kept ++ (editedLines block old ++ woven text block.stop others) := by
  obtain ⟨orderHere, orderOthers, -⟩ := List.pairwise_append.mp order
  have all : ∀ patch ∈ block.patches ++ others, patch.Fits text := by
    intro patch member
    rcases List.mem_append.mp member with here | there
    · exact sound.fits patch here
    · exact fits patch there
  have behind : ∀ patch ∈ (block.patches ++ others).head?, byteLength front ≤ patch.offset := by
    intro patch isHead
    have start := cut.start
    rcases List.mem_append.mp (List.mem_of_mem_head? isHead) with here | there
    · have after := (sound.inside patch here).1
      omega
    · have after := beyond patch there
      have ordered := sound.start_le_stop
      omega
  have shown := preview?_woven cut.whole all (order.imp And.right) behind
  have further := @preview?_woven text (front ++ kept ++ old) back others (by simp [cut.whole]) fits
    (orderOthers.imp And.right)
    fun patch isHead => cut.reached ▸ beyond patch (List.mem_of_mem_head? isHead)
  rw [cut.reached] at further
  rw [cut.preview? sound (orderHere.imp Precedes.follows) beyond, further] at shown
  cases result : editedLines? block old with
  | none => simp [result] at shown
  | some new =>
      rw [result] at shown
      rw [editedLines_of_editedLines? result]
      exact (Option.some.inj shown).symm

omit cut fits beyond in
/-- A patch that takes a terminator is the last one of its block and ends where the block does. -/
theorem Block.Sound.eq_nil_of_terminator {patch : Patch} {later : List Patch}
    (suffix : patch :: later <:+ block.patches)
    (last : (Text.between text patch.offset patch.span.stop).getLast? = some '\n') :
    later = [] ∧ patch.span.stop = block.stop := by
  obtain ⟨orderHere, -, -⟩ := List.pairwise_append.mp order
  have member : patch ∈ block.patches := suffix.subset List.mem_cons_self
  have patchFits := sound.fits patch member
  have span : patch.span.stop = patch.offset + patch.length := rfl
  obtain ⟨before, removed, after, parts, start, stop⟩ := Text.parts_of_boundaries patchFits.start
    patchFits.stop (Nat.le_add_right _ _)
  have between : Text.between text patch.offset patch.span.stop = removed := by
    rw [parts]
    exact Text.between_of_parts after start (by omega)
  rw [between] at last
  have filled : removed ≠ [] := by
    rintro rfl
    simp at last
  have begins : StartsLine text patch.span.stop := by
    refine ⟨before ++ removed, after, by simp [parts], by rw [Text.byteLength_append]; omega, ?_⟩
    rw [endsOpen_append before filled]
    exact closed_of_getLast? last
  have positive : patch.offset < patch.span.stop := by
    have some_ := byteLength_pos filled
    omega
  obtain ⟨earlier, whole⟩ := suffix
  rw [← whole] at orderHere
  obtain ⟨-, orderBack, beforeBack⟩ := List.pairwise_append.mp orderHere
  obtain ⟨afterPatch, -⟩ := List.pairwise_cons.mp orderBack
  have nothing : later = [] := by
    by_contra some_
    obtain ⟨next, isNext⟩ := List.exists_mem_of_ne_nil later some_
    obtain ⟨inner, isInner, below, above⟩ := sound.joined patch.span.stop begins ⟨patch, member, positive⟩
      ⟨next, by simp [← whole, isNext], (afterPatch next isNext).2⟩
    rw [← whole] at isInner
    rcases List.mem_append.mp isInner with isEarlier | isLater
    · have apart := (beforeBack inner isEarlier patch List.mem_cons_self).2
      omega
    · rcases List.mem_cons.mp isLater with rfl | isLater
      · omega
      · have apart := (afterPatch inner isLater).2
        omega
  refine ⟨nothing, Nat.le_antisymm (sound.stop_le member) (sound.least _ begins fun inner isInner => ?_)⟩
  rw [← whole, nothing] at isInner
  rcases List.mem_append.mp isInner with isEarlier | isLast
  · have apart := beforeBack inner isEarlier patch List.mem_cons_self
    exact ⟨Nat.lt_trans apart.1 positive, by have := apart.2; omega⟩
  · rw [List.mem_singleton.mp isLast]
    exact ⟨positive, Nat.le_refl _⟩

omit cut beyond in
/-- If text follows, a patch at the end of its block is no insertion. -/
theorem Block.Sound.replaces {patch : Patch} (member : patch ∈ block.patches)
    (stops : patch.span.stop = block.stop) (follows : woven text block.stop others ≠ []) :
    0 < patch.length := by
  have patchFits := sound.fits patch member
  have span : patch.span.stop = patch.offset + patch.length := rfl
  have inside := (sound.inside patch member).2
  by_contra zero
  by_cases below : patch.offset < byteLength text
  · have inBytes : patch.offset < (encoded text).length := by rwa [Text.length_encoded]
    have further := lt_lineEnd inBytes
    rw [blockOf_fits patchFits, if_neg zero, if_pos below] at inside
    dsimp only at inside
    omega
  · have none_ : others = [] := by
      by_contra some_
      obtain ⟨later, isLater⟩ := List.exists_mem_of_ne_nil others some_
      have after := ((List.pairwise_append.mp order).2.2 patch member later isLater).1
      have laterFits := (fits later isLater).stop_le
      have ordered : later.offset ≤ later.span.stop := Nat.le_add_right _ _
      omega
    have atEnd : block.stop = byteLength text := by
      have upTo := Text.isBoundary_le sound.stop.boundary
      omega
    rw [none_, Patch.woven, atEnd, Text.between_self] at follows
    exact follows rfl

/-- A block whose new lines end open although text follows takes the terminator of its last line. -/
theorem Cut.exists_terminator (last : endsOpen old = false ∨ others = [])
    (isOpen : endsOpen (editedLines block old) = true)
    (follows : woven text block.stop others ≠ []) :
    ∃ patch, [patch] <:+ block.patches ∧
      (Text.between text patch.offset patch.span.stop).getLast? = some '\n' := by
  obtain ⟨earlier, patch, whole⟩ := List.eq_nil_or_concat block.patches |>.resolve_left sound.filled
  rw [List.concat_eq_append] at whole
  have member : patch ∈ block.patches := by simp [whole]
  have patchFits := sound.fits patch member
  have span : patch.span.stop = patch.offset + patch.length := rfl
  have reached := cut.reached
  have closed : endsOpen old = false := by
    by_contra isOpen'
    obtain rfl := cut.ends.resolve_left isOpen'
    have atEnd : block.stop = byteLength text := by
      rw [← reached, cut.whole]
      simp
    rw [last.resolve_left isOpen', Patch.woven, atEnd, Text.between_self] at follows
    exact follows rfl
  have within := sound.stop_le member
  by_cases stops : patch.span.stop = block.stop
  · have replaces := sound.replaces order fits member stops follows
    have closedFront : endsOpen (front ++ kept ++ old) = false := by
      rwa [endsOpen_append_of_closed cut.closed]
    have parts : text = (front ++ kept ++ old) ++ back := by simp [cut.whole]
    refine ⟨patch, ⟨earlier, whole.symm⟩, ?_⟩
    rw [stops, ← reached]
    exact getLast?_between parts closedFront patchFits.start (by omega)
  · -- What the last patch leaves of the last line ends it.
    have inside := (sound.inside patch member).1
    have start := cut.start
    have stop := cut.stop
    have width : byteLength (front ++ kept) = block.start := by rwa [Text.byteLength_append]
    have parts : text = (front ++ kept) ++ (old ++ back) := by simp [cut.whole]
    obtain ⟨upTo, left, rfl, size⟩ := Text.exists_split parts patchFits.stop (by omega) (by omega)
    rw [Text.byteLength_append] at stop
    have stopped : byteLength (front ++ kept ++ upTo) = patch.span.stop := by
      rw [Text.byteLength_append]
      omega
    have nonempty : left ≠ [] := by
      rintro rfl
      rw [Text.byteLength_nil] at stop
      omega
    have left_ : woven text patch.span.stop others = left ++ woven text block.stop others := by
      have place : byteLength (front ++ kept ++ upTo ++ left) = block.stop := by
        rw [Text.byteLength_append]
        omega
      have parts : text = (front ++ kept ++ upTo) ++ (left ++ back) := by simp [cut.whole]
      rw [← stopped, ← place]
      exact woven_kept parts fits
        ((List.pairwise_append.mp order).2.1.imp And.right)
        fun next isHead => place.symm ▸ beyond next (List.mem_of_mem_head? isHead)
    obtain ⟨before, parts⟩ := exists_woven text (byteLength front) earlier patch
    have shown := cut.woven_block sound order fits beyond
    rw [whole, List.append_assoc, List.singleton_append, parts, left_, ← List.append_assoc,
      ← List.append_assoc] at shown
    have ends := congrArg endsOpen (List.append_cancel_right shown)
    rw [endsOpen_append before nonempty, endsOpen_append kept (ne_nil_of_endsOpen isOpen), isOpen,
      ← endsOpen_append upTo nonempty, closed] at ends
    simp at ends

omit cut fits beyond in
/-- Only the last patch of a block can join lines. -/
theorem Block.Sound.joins_iff {shown rewritten : List Char}
    (parts : rewritten = shown ++ woven text block.stop others) :
    Joins text rewritten (block.patches ++ others) ↔
      (endsOpen shown = true ∧ woven text block.stop others ≠ [] ∧ ∃ patch, [patch] <:+ block.patches ∧
        (Text.between text patch.offset patch.span.stop).getLast? = some '\n') ∨
      Joins text rewritten others := by
  constructor
  · rintro ⟨patch, back, before, suffix, whole, last, isOpen, follows⟩
    rcases cons_suffix_append_iff.mp suffix with ⟨later, rfl, here⟩ | there
    · obtain ⟨rfl, stops⟩ := sound.eq_nil_of_terminator order here last
      rw [List.nil_append, stops] at whole follows
      obtain rfl := List.append_cancel_right (parts.symm.trans whole)
      exact .inl ⟨isOpen, follows, patch, here, last⟩
    · exact .inr ⟨patch, back, before, there, whole, last, isOpen, follows⟩
  · rintro (⟨isOpen, follows, patch, here, last⟩ | ⟨patch, back, before, suffix, more⟩)
    · obtain ⟨-, stops⟩ := sound.eq_nil_of_terminator order here last
      rw [← stops] at parts follows
      exact ⟨patch, others, shown, cons_suffix_append_iff.mpr (.inl ⟨[], rfl, here⟩), parts, last, isOpen,
        follows⟩
    · exact ⟨patch, back, before, cons_suffix_append_iff.mpr (.inr suffix), more⟩

end Block

theorem closed_of_append {front back : List Char} (closed : endsOpen (front ++ back) = false) :
    endsOpen back = false := by
  by_cases empty : back = []
  · simp [empty]
  · rwa [endsOpen_append front empty] at closed

theorem Cut.closed_or_last {text front kept old back : List Char} {block : Block} {blocks : List Block}
    (cut : Cut text front block kept old back) (sound : ∀ later ∈ blocks, later.Sound text)
    (beyond : ∀ later ∈ blocks, block.stop ≤ later.start) : endsOpen old = false ∨ blocks = [] := by
  by_contra both
  rw [not_or] at both
  obtain ⟨isOpen, some_⟩ := both
  obtain rfl := cut.ends.resolve_left isOpen
  obtain ⟨later, member⟩ := List.exists_mem_of_ne_nil blocks some_
  obtain ⟨before, after, parts, size, closed⟩ := (sound later member).start
  have reached := cut.reached
  have place := beyond later member
  have total := congrArg byteLength parts
  rw [cut.whole] at total
  simp only [Text.byteLength_append, Text.byteLength_nil] at total reached
  obtain rfl : after = [] := by
    by_contra filled
    have positive := byteLength_pos filled
    omega
  rw [List.append_nil] at parts
  have whole : before = front ++ kept ++ old := by rw [← parts, cut.whole]; simp
  rw [whole, endsOpen_append_of_closed cut.closed] at closed
  exact isOpen closed

theorem lines_between {shown kept new after : List Char} (keptClosed : endsOpen kept = false)
    (closed : endsOpen shown = false ∨ kept ++ (new ++ after) = [])
    (ends : endsOpen new = false ∨ after = []) :
    (endsOpen (shown ++ kept ++ new) = false ∨ after = []) ∧
      lineCount (shown ++ kept) = lineCount shown + lineCount kept ∧
      lineCount (shown ++ kept ++ new) = lineCount (shown ++ kept) + lineCount new ∧
      lines (shown ++ kept ++ new ++ after) = lines (shown ++ kept) ++ lines new ++ lines after := by
  rcases closed with closed | nothing
  · have closedKept : endsOpen (shown ++ kept) = false := by rwa [endsOpen_append_of_closed closed]
    have closedNew : endsOpen (shown ++ kept ++ new) = endsOpen new := endsOpen_append_of_closed closedKept new
    refine ⟨closedNew ▸ ends, lineCount_append closed kept, lineCount_append closedKept new, ?_⟩
    rcases ends with closedEnd | rfl
    · rw [lines_append (closedNew.trans closedEnd), lines_append closedKept]
    · rw [List.append_nil, lines_append closedKept, lines_nil, List.append_nil]
  · obtain ⟨rfl, more⟩ := List.append_eq_nil_iff.mp nothing
    obtain ⟨rfl, rfl⟩ := List.append_eq_nil_iff.mp more
    simp [lineCount]

/-- If `shown` stands for `front` and has as many lines more as the hunks so far have added, the next hunk names
its new lines in what is shown. -/
theorem Cut.names_new {text front kept old back : List Char} {block : Block}
    (cut : Cut text front block kept old back) (stops : endsOpen front = false ∨ kept = [])
    {growth : Int} {shown after : List Char} (counted : lineCount front + growth = lineCount shown)
    (closed : endsOpen shown = false ∨ kept ++ ((LineDiff.hunkOf text growth block).new ++ after) = [])
    (ends : endsOpen (LineDiff.hunkOf text growth block).new = false ∨ after = []) :
    let hunk := LineDiff.hunkOf text growth block
    (endsOpen (shown ++ kept ++ hunk.new) = false ∨ after = []) ∧
      lineCount (front ++ kept ++ old) + (growth + hunk.newCount - hunk.oldCount) =
        lineCount (shown ++ kept ++ hunk.new) ∧
      Names (shown ++ kept ++ hunk.new ++ after) (shown ++ kept) hunk.new hunk.newStart hunk.newCount := by
  dsimp only
  obtain ⟨closed, countedKept, countedNew, split⟩ := lines_between (closed_of_append cut.closed) closed ends
  have countedOld := lineCount_append cut.closed old
  have countedFront : lineCount (front ++ kept) = lineCount front + lineCount kept := by
    rcases stops with closedFront | rfl
    · exact lineCount_append closedFront kept
    · simp [lineCount]
  have oldCount := cut.oldCount growth
  have newCount := cut.newCount growth
  have lines : (lineCount (front ++ kept) + growth : Int) = lineCount (shown ++ kept) := by omega
  have newStart := cut.newStart growth lines
  refine ⟨closed, ?_, ⟨after, rfl, split⟩, ?_, ?_⟩
  · rw [oldCount, newCount]
    omega
  · rw [length_lines]
    exact newCount
  · rw [length_lines, newCount]
    exact newStart

/-- The new lines of the hunks, with the lines that stay, are what applying the patches gives. If `shown` stands
for `front` and has as many lines more as the hunks so far have added, the numbers name lines of the whole as
long as the marker stands at its end, and this holds if no patch joins lines. -/
theorem named_new {text front rest : List Char} {blocks : List Block}
    (cuts : Cuts text front rest blocks) (order : (blocks.flatMap (·.patches)).Pairwise Precedes)
    (stops : endsOpen front = false ∨ rest = []) (growth : Int) :
    let patches := blocks.flatMap (·.patches)
    let stretches := stretchesFrom text growth (byteLength front) blocks
    let tail := tailFrom text (byteLength front) blocks
    woven text (byteLength front) patches = assembled .new stretches ++ tail ∧
    ∀ shown, lineCount front + growth = lineCount shown →
      (endsOpen shown = false ∨ woven text (byteLength front) patches = []) →
      (MarkedAtEnd .new tail stretches →
        Named .new (shown ++ woven text (byteLength front) patches) shown stretches) ∧
      (MarkedAtEnd .new tail stretches ↔
        ¬Joins text (shown ++ woven text (byteLength front) patches) patches) := by
  dsimp only
  induction cuts generalizing growth with
  | done whole =>
      refine ⟨rfl, fun shown _ _ => ⟨fun _ => trivial, ?_⟩⟩
      simp [MarkedAtEnd, stretchesFrom, Joins]
  | @next front kept old back block blocks here cut sound beyond _ ih =>
      rw [List.flatMap_cons] at order ⊢
      have fits := fits_of_sound sound
      have further := le_offset_of_sound sound beyond
      have stops' : endsOpen (front ++ kept ++ old) = false ∨ back = [] := by
        rw [endsOpen_append_of_closed cut.closed]
        exact cut.ends
      obtain ⟨whole', next⟩ := ih (List.pairwise_append.mp order).2.1 stops'
        (growth + (hunkOf text growth block).newCount - (hunkOf text growth block).oldCount)
      rw [cut.reached] at whole' next
      have divided := cut.woven_block here order fits further
      rw [← cut.newLines growth] at divided
      rw [divided, stretchesFrom, tailFrom, cut.between, assembled_cons, MarkedAtEnd, Side.marker_mem_iff,
        Hunk.text, ← whole']
      refine ⟨by simp only [whole', List.append_assoc], fun shown counted closed => ?_⟩
      have parts : shown ++ (kept ++ ((hunkOf text growth block).new ++
          woven text block.stop (blocks.flatMap (·.patches)))) =
          shown ++ kept ++ (hunkOf text growth block).new ++
            woven text block.stop (blocks.flatMap (·.patches)) := by
        simp only [List.append_assoc]
      rw [parts, here.joins_iff order rfl]
      -- Either the new lines end open in front of other text, and then the last patch of the block joins
      -- lines, or they are lines of the whole and the induction goes on behind them.
      by_cases joins : endsOpen (hunkOf text growth block).new = true ∧
          woven text block.stop (blocks.flatMap (·.patches)) ≠ []
      · have last := (cut.closed_or_last sound beyond).imp_right
          (congrArg (List.flatMap fun block : Block => block.patches))
        have terminator := cut.exists_terminator here order fits further last
          (cut.newLines growth ▸ joins.1) joins.2
        have isOpen := (endsOpen_append (shown ++ kept) (ne_nil_of_endsOpen joins.1)).trans joins.1
        refine ⟨fun marked => absurd (marked.1 joins.1) joins.2,
          fun marked => absurd (marked.1 joins.1) joins.2,
          fun apart => absurd (.inl ⟨isOpen, joins.2, terminator⟩) apart⟩
      · rw [not_and_or, Bool.not_eq_true, not_not] at joins
        obtain ⟨closed, counted, names⟩ := cut.names_new
          (stops.imp_right fun nothing => (List.append_eq_nil_iff.mp nothing).1) counted closed joins
        obtain ⟨named, marked⟩ := next _ counted closed
        refine ⟨fun both => ⟨names, named both.2⟩, ?_⟩
        rw [not_or, ← marked]
        refine and_congr_left fun _ => iff_of_true (fun isOpen => ?_) ?_
        · exact joins.resolve_left (ne_of_eq_of_ne isOpen (by decide))
        · rintro ⟨isOpen, some_, -⟩
          exact some_ (closed.resolve_left (ne_of_eq_of_ne isOpen (by decide)))

/-- The diff of patches at ascending offsets. Its old side is marked at the end of the text only. Its hunks name
the lines of the rewritten text that they show, and only the last line of it is marked, if and only if no patch
takes a line terminator and leaves an open line in front of other text. -/
theorem new_side_iff (path : String) {text rewritten : String} {patches : List Patch}
    (ascend : patches.Pairwise fun first second => first.offset < second.offset)
    (accepted : Patch.splice text patches = .ok rewritten) :
    ∃ stretches tail,
      hunks text patches = stretches.map (·.hunk) ∧
      (patches ≠ [] → read path (render path text patches) = some (stretches.map (·.hunk))) ∧
      text.toList = assembled .old stretches ++ tail ∧ MarkedAtEnd .old tail stretches ∧
      rewritten.toList = assembled .new stretches ++ tail ∧
      (Named .new rewritten.toList [] stretches ∧ MarkedAtEnd .new tail stretches ↔
        ¬Joins text.toList rewritten.toList patches) := by
  obtain ⟨descends, rfl⟩ := Patch.splice_eq_ok_iff.mp accepted
  obtain ⟨old, -, marked⟩ := stretches_old descends
  obtain ⟨sound, apart, whole⟩ := divides descends
  have behind := descends.apart_of_ascend ascend
  rw [Patch.ascending_of_ascend ascend] at whole
  have order : ((blocks (Text.bytes text) patches).flatMap (·.patches)).Pairwise Precedes := by
    rw [whole]
    exact ascend.and behind
  have parts : text.toList = [] ++ text.toList := rfl
  obtain ⟨new, named⟩ :=
    named_new (cuts_of_sound parts sound apart fun block _ => Nat.zero_le _) order (.inl rfl) 0
  obtain ⟨isNamed, isMarked⟩ := named [] rfl (.inl rfl)
  rw [List.nil_append, whole, Text.byteLength_nil] at isNamed isMarked
  rw [whole, Text.byteLength_nil] at new
  rw [Patch.descending_of_ascend ascend, String.toList_ofList]
  refine ⟨stretches text patches, tail text patches, hunks_eq text patches, fun some_ => ?_, old, marked, new,
    ?_⟩
  · rw [read_render some_, hunks_eq]
  · exact ⟨fun both => isMarked.mp both.2, fun apart => ⟨isNamed (isMarked.mpr apart), isMarked.mpr apart⟩⟩

/-- A line that goes in front of one that stays. -/
theorem new_side_iff_whole_line :
    let text := "a\nb\n"
    let patches : List Patch := [⟨0, 2, "", ""⟩, ⟨2, 0, "c", ""⟩]
    Patch.splice text patches = .ok "cb\n" ∧
      ∃ stretches tail, hunks text patches = stretches.map (·.hunk) ∧
        "cb\n".toList = assembled .new stretches ++ tail ∧
        Named .new "cb\n".toList [] stretches ∧ MarkedAtEnd .new tail stretches := by
  intro text patches
  have accepted : Patch.splice text patches = .ok "cb\n" := by
    rw [Patch.splice, Patch.spliceChars, Patch.descending_of_ascending (by simp [patches])]
    decide +kernel
  obtain ⟨stretches, tail, hunks, -, -, -, new, named⟩ :=
    new_side_iff "a.cpp" (by simp [patches]) accepted
  refine ⟨accepted, stretches, tail, hunks, new, named.mpr ?_⟩
  rintro ⟨patch, back, before, suffix, whole, last, isOpen, -⟩
  rcases List.suffix_cons_iff.mp suffix with first | others
  · obtain ⟨rfl, rfl⟩ := List.cons.inj first
    have rest : "cb\n".toList = [] ++ woven text.toList 2 [⟨2, 0, "c", ""⟩] := by decide
    obtain rfl := List.append_cancel_right (whole.symm.trans rest)
    simp at isOpen
  · rcases List.suffix_cons_iff.mp others with second | none_
    · obtain ⟨rfl, rfl⟩ := List.cons.inj second
      exact absurd last (by decide)
    · simp at none_

/-- A statement goes with the line terminator behind it, and the code in front of it stays. The hunk shows this
code as the last line of the text, where the rewritten text has one line with what follows in it. -/
theorem joined_line_marked :
    let text := "int x;  using namespace std;\nint y;\n"
    let patches : List Patch := [⟨8, 21, "", ""⟩]
    let rewritten := "int x;  int y;\n"
    Patch.splice text patches = .ok rewritten ∧
      render "a.cpp" text patches = "--- a/a.cpp\n+++ b/a.cpp\n@@ -1,1 +1,1 @@\n" ++
        "-int x;  using namespace std;\n+int x;  \n\\ No newline at end of file\n" ∧
      lines rewritten.toList = ["int x;  int y;\n".toList] ∧
      ∀ hunk ∈ hunks text patches, marker ∈ lines (markedLines '+' hunk.new) ∧
        ∀ front, ¬Names rewritten.toList front hunk.new hunk.newStart hunk.newCount := by
  intro text patches rewritten
  have accepted : Patch.splice text patches = .ok rewritten := by
    rw [Patch.splice, Patch.spliceChars, Patch.descending, List.mergeSort_singleton]
    decide +kernel
  have isHunk : hunks text patches =
      [⟨1, 1, 1, 1, "int x;  using namespace std;\n".toList, "int x;  ".toList⟩] := by
    rw [hunks, blocks, List.mergeSort_singleton, Text.bytes_eq]
    decide +kernel
  have whole : lines rewritten.toList = ["int x;  int y;\n".toList] := by decide
  refine ⟨accepted, ?_, whole, fun hunk member => ?_⟩
  · rw [render, isHunk]
    decide +kernel
  rw [isHunk, List.mem_singleton] at member
  subst member
  refine ⟨by decide, fun front names => ?_⟩
  obtain ⟨back, -, split⟩ := names.whole
  have line : "int x;  ".toList ∈ lines rewritten.toList := by
    rw [split]
    exact List.mem_append_left _ (List.mem_append_right _ (by decide))
  rw [whole] at line
  exact absurd line (by decide)

end Requalify.LineDiff
