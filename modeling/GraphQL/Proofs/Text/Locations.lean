import GraphQL.Text.Location
import Mathlib.Data.List.DropRight

/-!
Locations are exact.

Bisection finds where the numbers up to a given one end (`Search.run_eq`). Up to a place in a text
there is one start of a line more than there are line feeds, and the last of these starts is where
the line of the place begins. So a location counts the line feeds and the characters that come
before it (`LineIndex.location_ofText`), and places further behind have greater locations
(`LineIndex.location_exact`).
-/

set_option autoImplicit false

namespace GraphQL

namespace Search

variable {xs : Array Nat} {x n : Nat}

/-- The range holds the last of the first `n` numbers: those up to `x`. Both halves that bisection
may go on with keep this. -/
theorem bisect_eq (hn : ∀ (i : Nat) (h : i < xs.size), xs[i] ≤ x ↔ i < n) {base size : Nat}
    (hsize : base + size ≤ xs.size) (hbase : base < n) (hend : n ≤ base + size) :
    bisect xs x base size = n - 1 := by
  have hread : ∀ mid, mid < xs.size → (xs[mid]?.any (x < ·) = true ↔ n ≤ mid) := by
    intro mid hmid
    have hsplit := hn mid hmid
    rw [Array.getElem?_eq_getElem hmid, Option.any_some, decide_eq_true_iff]
    omega
  fun_induction bisect xs x base size with
  | case1 base size hone => omega
  | case2 base size hmany half mid hleft ih =>
    have hhalf : half = size / 2 := rfl
    have hmid : mid = base + half := rfl
    have hle := (hread mid (by omega)).1 hleft
    exact ih (by omega) hbase (by omega)
  | case3 base size hmany half mid hright ih =>
    have hhalf : half = size / 2 := rfl
    have hmid : mid = base + half := rfl
    have hlt := mt (hread mid (by omega)).2 hright
    exact ih (by omega) (by omega) (by omega)

/-- Among the first `n` numbers, those up to `x`, the last one is hit or missed. -/
theorem run_eq (hn : ∀ (i : Nat) (h : i < xs.size), xs[i] ≤ x ↔ i < n) (hpos : 0 < n)
    (hle : n ≤ xs.size) : run xs x = hit (n - 1) ∨ run xs x = miss n := by
  have hlast : n - 1 < xs.size := by omega
  have hbisect : bisect xs x 0 xs.size = n - 1 := bisect_eq hn (by omega) hpos (by omega)
  have hmost : xs[n - 1] ≤ x := (hn (n - 1) hlast).2 (by omega)
  simp only [run, hbisect, Array.getElem?_eq_getElem hlast]
  rcases Nat.eq_or_lt_of_le hmost with heq | hlt
  · exact .inl (if_pos heq)
  · rw [if_neg hlt.ne, if_pos hlt]
    exact .inr (congrArg miss (by omega))

end Search

/-- Locations are ordered by line first, and within a line by column. -/
def Location.Before (l m : Location) : Prop :=
  l.line < m.line ∨ l.line = m.line ∧ l.column < m.column

namespace LineIndex

theorem utf8ByteSize_ofList_cons (c : Char) (cs : List Char) :
    (String.ofList (c :: cs)).utf8ByteSize = c.utf8Size + (String.ofList cs).utf8ByteSize := by
  rw [String.ofList_cons, String.utf8ByteSize_append, String.utf8ByteSize_singleton]

section

variable {offset start : Nat} {cs : List Char}

theorem startsAfter_append (before after : List Char) :
    startsAfter offset (before ++ after) = startsAfter offset before ++
      startsAfter (offset + (String.ofList before).utf8ByteSize) after := by
  induction before generalizing offset with
  | nil => rfl
  | cons c cs ih =>
    simp only [List.cons_append, startsAfter, ih, utf8ByteSize_ofList_cons, Nat.add_assoc]
    split <;> rfl

theorem length_startsAfter : (startsAfter offset cs).length = cs.count '\n' := by
  induction cs generalizing offset with
  | nil => rfl
  | cons c cs ih =>
    rw [startsAfter, List.count_cons]
    by_cases hc : c = '\n' <;> simp [hc, ih]

theorem mem_startsAfter_bounds (h : start ∈ startsAfter offset cs) :
    offset < start ∧ start ≤ offset + (String.ofList cs).utf8ByteSize := by
  induction cs generalizing offset with
  | nil => cases h
  | cons c cs ih =>
    have hpos := c.utf8Size_pos
    have hbounds : start = offset + c.utf8Size ∨ start ∈ startsAfter (offset + c.utf8Size) cs := by
      rw [startsAfter] at h
      split at h
      · exact List.mem_cons.1 h
      · exact .inr h
    rw [utf8ByteSize_ofList_cons]
    rcases hbounds with rfl | hmem
    · omega
    · have := ih hmem
      omega

end

/-- The characters in front of a position. -/
def front {text : String} (p : text.Pos) : List Char := (text.sliceTo p).copy.toList

/-- The number of the line of a place that is behind these characters. -/
def lineOf (front : List Char) : Nat := front.count '\n' + 1

/-- The characters of that line up to the place. -/
def lineFront (front : List Char) : List Char := front.rtakeWhile (· ≠ '\n')

def columnOf (front : List Char) : Nat := (lineFront front).length + 1

/-- The last line starts behind everything but its own characters. -/
theorem getLast?_starts (cs : List Char) : (0 :: startsAfter 0 cs).getLast? =
    some (String.ofList (cs.rdropWhile (· ≠ '\n'))).utf8ByteSize := by
  induction cs using List.reverseRecOn with
  | nil => rfl
  | append_singleton cs c ih =>
    rw [startsAfter_append, ← List.cons_append]
    by_cases hc : c = '\n'
    · subst hc
      rw [List.rdropWhile_concat_neg _ _ _ (by simp), String.ofList_append,
        String.utf8ByteSize_append, Nat.zero_add, startsAfter, if_pos rfl]
      exact List.getLast?_concat
    · rw [List.rdropWhile_concat_pos _ _ _ (by simp [hc])]
      simpa [startsAfter, hc] using ih

theorem pos?_offset {text : String} (p : text.Pos) : text.pos? p.offset = some p := by
  have hvalid : p.offset.isValidForSlice text.toSlice = true :=
    String.Pos.Raw.isValidForSlice_eq_true_iff.2 p.toSlice.isValidForSlice
  rw [String.pos?, String.Slice.pos?, dif_pos hvalid]
  rfl

theorem slice?_of_splits {text a b c : String} {p q : text.Pos} (hp : p.Splits a (b ++ c))
    (hq : q.Splits (a ++ b) c) : slice? text p.offset.byteIdx q.offset.byteIdx = some b := by
  obtain ⟨hle, hcopy⟩ := String.copy_slice_eq_iff_splits.2 ⟨a, c, hp, hq⟩
  have hslice : text.slice? p q = some (text.slice p q hle) := dif_pos hle
  rw [slice?, pos?_offset, pos?_offset]
  simp only [Option.bind_eq_bind, Option.bind_some, hslice, hcopy]
  rfl

section

variable {text : String} (p q : text.Pos)

theorem offset_eq_size : p.offset.byteIdx = (String.ofList (front p)).utf8ByteSize := by
  rw [front, String.ofList_toList, p.splits.offset_eq_rawEndPos, String.byteIdx_rawEndPos]

theorem lineStarts_eq : (ofText text).lineStarts = (0 :: startsAfter 0 (front p) ++
    startsAfter p.offset.byteIdx (text.sliceFrom p).copy.toList).toArray := by
  have htext : text.toList = front p ++ (text.sliceFrom p).copy.toList := by
    rw [front, ← String.toList_append, ← p.splits.eq_append]
  rw [ofText, htext, startsAfter_append, Nat.zero_add, ← offset_eq_size]
  rfl

theorem length_starts : (0 :: startsAfter 0 (front p)).length = lineOf (front p) := by
  rw [List.length_cons, length_startsAfter, lineOf]

/-- Up to a position there are as many starts of lines as the number of its line says. -/
theorem lineStarts_le_iff (i : Nat) (h : i < (ofText text).lineStarts.size) :
    (ofText text).lineStarts[i] ≤ p.offset.byteIdx ↔ i < lineOf (front p) := by
  simp only [lineStarts_eq p, List.getElem_toArray, ← length_starts]
  by_cases hi : i < (0 :: startsAfter 0 (front p)).length
  · rw [List.getElem_append_left hi]
    refine iff_of_true ?_ hi
    rcases List.mem_cons.1 (List.getElem_mem hi) with hzero | hmem
    · omega
    · have := (mem_startsAfter_bounds hmem).2
      rw [← offset_eq_size] at this
      omega
  · rw [List.getElem_append_right (by omega)]
    refine iff_of_false (Nat.not_le.2 ?_) hi
    exact (mem_startsAfter_bounds (List.getElem_mem _)).1

theorem lineAt_ofText : (ofText text).lineAt p.offset.byteIdx = (front p).count '\n' := by
  have hle : lineOf (front p) ≤ (ofText text).lineStarts.size := by
    rw [lineStarts_eq p, List.size_toArray, List.length_append, length_starts]
    exact Nat.le_add_right _ _
  rcases Search.run_eq (lineStarts_le_iff p) (Nat.succ_pos _) hle with hrun | hrun <;>
    simp only [lineAt, hrun, lineOf, Nat.add_sub_cancel]

/-- The line of a position starts where its characters up to the position begin. -/
theorem start_eq : (ofText text).lineStarts.getD ((front p).count '\n') 0 =
    (String.ofList ((front p).rdropWhile (· ≠ '\n'))).utf8ByteSize := by
  have hlast := getLast?_starts (front p)
  have hlt : (front p).count '\n' < (0 :: startsAfter 0 (front p)).length := by
    rw [length_starts]
    exact Nat.lt_succ_self _
  rw [List.getLast?_eq_getElem?, length_starts, lineOf, Nat.add_sub_cancel] at hlast
  rw [lineStarts_eq p, Array.getD_eq_getD_getElem?, List.getElem?_toArray,
    List.getElem?_append_left hlt, hlast, Option.getD_some]

theorem slice?_start : slice? text
    (String.ofList ((front p).rdropWhile (· ≠ '\n'))).utf8ByteSize p.offset.byteIdx =
      some (String.ofList (lineFront (front p))) := by
  have hfront : (text.sliceTo p).copy = String.ofList ((front p).rdropWhile (· ≠ '\n')) ++
      String.ofList (lineFront (front p)) := by
    rw [← String.ofList_append, lineFront, List.rdropWhile_append_rtakeWhile, front,
      String.ofList_toList]
  have hp := p.splits
  rw [hfront] at hp
  have hstart := String.Pos.splits_ofEqAppend (hp.eq_append.trans String.append_assoc)
  have hslice := slice?_of_splits hstart hp
  rwa [hstart.offset_eq_rawEndPos, String.byteIdx_rawEndPos] at hslice

theorem location_ofText : (ofText text).location p.offset.byteIdx =
    ⟨UInt32.ofNat (lineOf (front p)), UInt32.ofNat (columnOf (front p))⟩ := by
  have hsource : (ofText text).source = text := rfl
  rw [location, lineAt_ofText, start_eq, hsource, slice?_start, Option.map_some, Option.getD_some,
    String.length_ofList, lineOf, columnOf]

variable {p q}

/-- What is in front of a position stays in front of the positions behind it. -/
theorem front_of_lt (h : p < q) : ∃ between, between ≠ [] ∧ front q = front p ++ between := by
  obtain ⟨between, hne, hfront, -⟩ := (p.splits.lt_iff_exists_eq_append q.splits).1 h
  refine ⟨between.toList, fun hnil => hne (String.toList_eq_nil_iff.1 hnil), ?_⟩
  rw [front, hfront, String.toList_append]
  rfl

/-- A place further behind is on a later line, or in a later column of the same line. -/
theorem lineOf_append (cs : List Char) {between : List Char} (h : between ≠ []) :
    lineOf cs < lineOf (cs ++ between) ∨
      lineOf cs = lineOf (cs ++ between) ∧ columnOf cs < columnOf (cs ++ between) := by
  rw [lineOf, lineOf, List.count_append]
  by_cases hbreak : '\n' ∈ between
  · have hcount := List.count_pos_iff.2 hbreak
    exact .inl (by omega)
  · have hcount := List.count_eq_zero_of_not_mem hbreak
    have hline : lineFront (cs ++ between) = lineFront cs ++ between := by
      rw [lineFront, List.rtakeWhile, List.reverse_append, List.takeWhile_append_of_pos,
        List.reverse_append, List.reverse_reverse]
      · rfl
      · exact fun c hc => decide_eq_true fun hc' => hbreak (hc' ▸ List.mem_reverse.1 hc)
    have hlength := List.length_pos_iff.2 h
    refine .inr ⟨by omega, ?_⟩
    rw [columnOf, columnOf, hline, List.length_append]
    omega

end

/-- The line and the column of a place behind these characters can be told in 32 bits. -/
def Fits (front : List Char) : Prop := lineOf front < UInt32.size ∧ columnOf front < UInt32.size

instance (front : List Char) : Decidable (Fits front) := inferInstanceAs (Decidable (_ ∧ _))

/-- The location of every character boundary tells its line and its column, and of two boundaries
the one further behind has the greater location. -/
theorem location_exact (text : String) :
    (∀ p : text.Pos, Fits (front p) →
      ((ofText text).location p.offset.byteIdx).line.toNat = (front p).count '\n' + 1 ∧
      ((ofText text).location p.offset.byteIdx).column.toNat =
        ((front p).rtakeWhile (· ≠ '\n')).length + 1) ∧
    ∀ p q : text.Pos, p < q → Fits (front p) → Fits (front q) →
      ((ofText text).location p.offset.byteIdx).Before
        ((ofText text).location q.offset.byteIdx) := by
  refine ⟨fun p hp => ?exact, fun p q h hp hq => ?ordered⟩
  case exact =>
    rw [location_ofText]
    exact ⟨UInt32.toNat_ofNat_of_lt' hp.1, UInt32.toNat_ofNat_of_lt' hp.2⟩
  case ordered =>
    obtain ⟨between, hne, hfront⟩ := front_of_lt h
    rw [location_ofText, location_ofText, Location.Before, UInt32.lt_iff_toNat_lt,
      UInt32.lt_iff_toNat_lt, ← UInt32.toNat_inj, UInt32.toNat_ofNat_of_lt' hp.1,
      UInt32.toNat_ofNat_of_lt' hp.2, UInt32.toNat_ofNat_of_lt' hq.1,
      UInt32.toNat_ofNat_of_lt' hq.2, hfront]
    exact lineOf_append (front p) hne

/-- Two lines, with a character of two bytes in the second. -/
def accented : String := "a\nbé c"

/-- In front of the last letter. -/
def accentedLetter : accented.Pos := accented.pos ⟨6⟩ (by decide +kernel)

theorem location_exact_accented :
    accentedLetter < accented.endPos ∧ Fits (front accentedLetter) ∧ Fits (front accented.endPos) ∧
      ((ofText accented).location accentedLetter.offset.byteIdx).line.toNat = 2 ∧
      ((ofText accented).location accentedLetter.offset.byteIdx).column.toNat = 4 ∧
      ((ofText accented).location accentedLetter.offset.byteIdx).Before
        ((ofText accented).location accented.endPos.offset.byteIdx) := by
  have hlt : accentedLetter < accented.endPos := by decide +kernel
  have hletter : front accentedLetter = "a\nbé ".toList := by decide +kernel
  have hfits : Fits (front accentedLetter) := by decide +kernel
  have hfitsEnd : Fits (front accented.endPos) := by decide +kernel
  obtain ⟨hexact, hordered⟩ := location_exact accented
  obtain ⟨hline, hcolumn⟩ := hexact accentedLetter hfits
  rw [hletter] at hline hcolumn
  exact ⟨hlt, hfits, hfitsEnd, hline, hcolumn,
    hordered accentedLetter accented.endPos hlt hfits hfitsEnd⟩

end LineIndex

end GraphQL
