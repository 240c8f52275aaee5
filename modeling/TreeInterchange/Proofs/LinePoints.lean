import Mathlib.Data.List.GetD
import Mathlib.Tactic.ByContra
import TreeInterchange.LineTable

/-!
# Points of offsets

The starts of lines are the zero and the offsets just after the newlines, in ascending order. The
bisection keeps everything before the interval it looks at below the offset and everything behind
it above, so it ends at the last start that is not beyond the offset, whether or not the offset is
a start itself. The starts up to an offset are one more than the newlines before it, and the last
of them is the start of its line. So the point of an offset says how many newlines come before it
and how far behind the last of them it lies.

The number of a line is a 32-bit number that counts from one. A text of the greatest length that is
nothing but newlines has one line too many: its end is put on a line zero, before all other points.
-/

namespace TreeInterchange.LineTable

variable {bytes : List UInt8} {starts : List Nat} {s o k i n lo hi : Nat}

/-- The offset just after the last newline before `o`, or zero if there is none. -/
def lineStart (bytes : List UInt8) : Nat → Nat
  | 0 => 0
  | o + 1 => if bytes[o]? = some 10 then o + 1 else lineStart bytes o

/-- The offset that a point stands for. -/
def offsetOf (t : LineTable) (p : Point) : Nat :=
  t.starts.getD (p.line.toNat - 1) 0 + p.column.toNat

/-- As many bytes as 32 bits can count, all of them newlines. -/
def Overlong (bytes : List UInt8) : Prop := bytes.length + 1 = UInt32.size ∧ ∀ b ∈ bytes, b = 10

theorem mem_startsAfter : s ∈ startsAfter k bytes ↔ ∃ i, bytes[i]? = some 10 ∧ s = k + i + 1 := by
  induction bytes generalizing k with
  | nil => simp [startsAfter]
  | cons b bs ih =>
    have hrest : s ∈ startsAfter (k + 1) bs ↔
        ∃ i, (b :: bs)[i + 1]? = some 10 ∧ s = k + (i + 1) + 1 := by
      simp only [ih, List.getElem?_cons_succ]
      exact exists_congr fun i => by rw [Nat.add_right_comm k 1 i, Nat.add_assoc k i 1]
    rw [← Nat.or_exists_add_one, ← hrest]
    by_cases hb : b = 10 <;> simp [startsAfter, hb]

theorem pairwise_startsAfter (k : Nat) (bytes : List UInt8) :
    (startsAfter k bytes).Pairwise (· < ·) := by
  induction bytes generalizing k with
  | nil => exact .nil
  | cons b bs ih =>
    rw [startsAfter]
    split
    · refine List.pairwise_cons.2 ⟨fun s hs => ?_, ih (k + 1)⟩
      obtain ⟨i, -, rfl⟩ := mem_startsAfter.1 hs
      omega
    · exact ih (k + 1)

theorem length_startsAfter (k : Nat) (bytes : List UInt8) :
    (startsAfter k bytes).length = bytes.count 10 := by
  induction bytes generalizing k with
  | nil => rfl
  | cons b bs ih => by_cases hb : b = 10 <;> simp [startsAfter, hb, ih]

theorem filter_startsAfter (k o : Nat) (bytes : List UInt8) :
    (startsAfter k bytes).filter (· ≤ k + o) = startsAfter k (bytes.take o) := by
  induction bytes generalizing k o with
  | nil => simp [startsAfter]
  | cons b bs ih =>
    cases o with
    | zero =>
      rw [List.take_zero, startsAfter, List.filter_eq_nil_iff]
      intro s hs
      obtain ⟨i, -, rfl⟩ := mem_startsAfter.1 hs
      rw [decide_eq_true_iff]
      omega
    | succ o =>
      have hrest := ih (k + 1) o
      rw [Nat.add_right_comm, Nat.add_assoc] at hrest
      by_cases hb : b = 10 <;> simp [startsAfter, hb, hrest]

def Ascending (starts : List Nat) : Prop :=
  ∀ i j, i < j → j < starts.length → starts.getD i 0 < starts.getD j 0

/-- What comes before `lo` is below `o`, and what comes from `hi` on is above it. -/
structure Brackets (starts : List Nat) (o lo hi : Nat) : Prop where
  le : lo ≤ hi
  le_length : hi ≤ starts.length
  below : ∀ i < lo, starts.getD i 0 < o
  above : ∀ i, hi ≤ i → i < starts.length → o < starts.getD i 0

theorem brackets_all (starts : List Nat) (o : Nat) : Brackets starts o 0 starts.length :=
  ⟨Nat.zero_le _, Nat.le_refl _, fun i hi => absurd hi (Nat.not_lt_zero i),
    fun _ hi hlt => absurd hlt (Nat.not_lt.2 hi)⟩

/-- The bisection finds `o` at its place, or it ends between what is below `o` and what is above. -/
theorem bisect_spec (hs : Ascending starts) (h : Brackets starts o lo hi) :
    match bisect starts o lo hi with
    | .ok i => i < starts.length ∧ starts.getD i 0 = o
    | .error next => Brackets starts o next next := by
  have hlength := h.le_length
  fun_induction bisect starts o lo hi with
  | case1 lo hi hlt mid start hfound => exact ⟨by omega, hfound⟩
  | case2 lo hi hlt mid start hne hbelow ih =>
    refine ih ⟨by omega, h.le_length, fun i hi => ?_, h.above⟩ hlength
    rcases Nat.lt_or_eq_of_le (Nat.le_of_lt_succ hi) with hi | rfl
    · exact Nat.lt_trans (hs i mid hi (by omega)) hbelow
    · exact hbelow
  | case3 lo hi hlt mid start hne hbelow ih =>
    have habove : o < start := by omega
    refine ih ⟨by omega, by omega, h.below, fun i hi hi' => ?_⟩ (by omega)
    rcases Nat.lt_or_eq_of_le hi with hi | rfl
    · exact Nat.lt_trans habove (hs mid i hi hi')
    · exact habove
  | case4 lo hi hge =>
    obtain rfl : lo = hi := Nat.le_antisymm h.le (Nat.le_of_not_lt hge)
    exact h

/-- The last entry that is not beyond `o` stands at the place `i`. -/
structure LastUpTo (starts : List Nat) (o i : Nat) : Prop where
  lt : i < starts.length
  le : starts.getD i 0 ≤ o
  later : ∀ j, i < j → j < starts.length → o < starts.getD j 0

theorem LastUpTo.of_eq (hs : Ascending starts) (hi : i < starts.length)
    (ho : starts.getD i 0 = o) : LastUpTo starts o i :=
  ⟨hi, Nat.le_of_eq ho, fun j hj hlt => ho ▸ hs i j hj hlt⟩

theorem Brackets.lastUpTo (h : Brackets starts o n n) (hn : n ≠ 0) : LastUpTo starts o (n - 1) := by
  have hlength := h.le_length
  exact ⟨by omega, Nat.le_of_lt (h.below _ (by omega)), fun j hj => h.above j (by omega)⟩

theorem Brackets.ne_zero (h : Brackets starts o n n) (hfirst : starts.getD 0 0 = 0)
    (hne : 0 < starts.length) : n ≠ 0 := by
  rintro rfl
  have := h.above 0 (Nat.le_refl 0) hne
  omega

theorem ascending_ofBytes (bytes : List UInt8) : Ascending (ofBytes bytes).starts := by
  have hsorted : (ofBytes bytes).starts.Pairwise (· < ·) := by
    refine List.pairwise_cons.2 ⟨fun s hs => ?_, pairwise_startsAfter 0 bytes⟩
    obtain ⟨i, -, rfl⟩ := mem_startsAfter.1 hs
    omega
  intro i j hij hj
  rw [List.getD_eq_getElem _ 0 hj, List.getD_eq_getElem _ 0 (Nat.lt_trans hij hj)]
  exact List.pairwise_iff_getElem.1 hsorted i j _ hj hij

theorem mem_starts : s ∈ (ofBytes bytes).starts ↔ s = 0 ∨ ∃ i, bytes[i]? = some 10 ∧ s = i + 1 := by
  simp only [ofBytes, List.mem_cons, mem_startsAfter, Nat.zero_add]

/-- Neither answer of the bisection can lead outside the table. -/
theorem bisect_ofBytes (bytes : List UInt8) (o : Nat) :
    bisect (ofBytes bytes).starts o 0 (ofBytes bytes).starts.length ≠ .error 0 ∧
      LastUpTo (ofBytes bytes).starts o ((ofBytes bytes).lineAt o) := by
  have hs := ascending_ofBytes bytes
  have hspec := bisect_spec hs (brackets_all (ofBytes bytes).starts o)
  unfold lineAt
  cases hb : bisect (ofBytes bytes).starts o 0 (ofBytes bytes).starts.length with
  | ok i =>
    rw [hb] at hspec
    exact ⟨by simp, .of_eq hs hspec.1 hspec.2⟩
  | error next =>
    rw [hb] at hspec
    have hne := hspec.ne_zero rfl (Nat.succ_pos _)
    exact ⟨fun h => hne (Except.error.inj h), hspec.lastUpTo hne⟩

theorem LastUpTo.length_filter (hs : Ascending starts) (h : LastUpTo starts o i) :
    (starts.filter (· ≤ o)).length = i + 1 := by
  have hlt := h.lt
  have hupTo : (starts.take (i + 1)).filter (· ≤ o) = starts.take (i + 1) := by
    refine List.filter_eq_self.2 fun s hs' => decide_eq_true ?_
    obtain ⟨j, hj, rfl⟩ := List.mem_take_iff_getElem.1 hs'
    rw [← List.getD_eq_getElem starts 0]
    rcases Nat.lt_or_eq_of_le (show j ≤ i by omega) with hji | rfl
    · exact Nat.le_trans (Nat.le_of_lt (hs j i hji h.lt)) h.le
    · exact h.le
  have hbeyond : (starts.drop (i + 1)).filter (· ≤ o) = [] := by
    refine List.filter_eq_nil_iff.2 fun s hs' => ?_
    obtain ⟨j, hj, rfl⟩ := List.mem_drop_iff_getElem.1 hs'
    have := h.later (i + 1 + j) (by omega) (by omega)
    rw [List.getD_eq_getElem _ 0 (by omega)] at this
    simpa using this
  rw [← List.take_append_drop (i + 1) starts, List.filter_append, hupTo, hbeyond, List.append_nil,
    List.length_take]
  omega

theorem lineAt_ofBytes (bytes : List UInt8) (o : Nat) :
    (ofBytes bytes).lineAt o = (bytes.take o).count 10 := by
  have hcount := (bisect_ofBytes bytes o).2.length_filter (ascending_ofBytes bytes)
  have hupTo := filter_startsAfter 0 o bytes
  rw [Nat.zero_add] at hupTo
  have hstarts : (ofBytes bytes).starts.filter (· ≤ o) = 0 :: startsAfter 0 (bytes.take o) := by
    rw [← hupTo]
    rfl
  rw [hstarts, List.length_cons, length_startsAfter] at hcount
  omega

theorem lineStart_le (bytes : List UInt8) (o : Nat) : lineStart bytes o ≤ o := by
  induction o with
  | zero => exact Nat.le_refl 0
  | succ o ih =>
    rw [lineStart]
    split
    · exact Nat.le_refl _
    · omega

theorem lineStart_mem_starts (bytes : List UInt8) (o : Nat) :
    lineStart bytes o ∈ (ofBytes bytes).starts := by
  induction o with
  | zero => exact mem_starts.2 (.inl rfl)
  | succ o ih =>
    rw [lineStart]
    split
    · rename_i hnewline
      exact mem_starts.2 (.inr ⟨o, hnewline, rfl⟩)
    · exact ih

theorem le_lineStart (hs : s ∈ (ofBytes bytes).starts) (hso : s ≤ o) : s ≤ lineStart bytes o := by
  induction o with
  | zero => exact hso
  | succ o ih =>
    rw [lineStart]
    split
    · exact hso
    · rename_i hnot
      refine ih (Nat.le_of_lt_succ (Nat.lt_of_le_of_ne hso ?_))
      rintro rfl
      rcases mem_starts.1 hs with h | ⟨i, hi, h⟩
      · cases h
      · exact hnot (Nat.succ.inj h ▸ hi)

theorem starts_lineAt (bytes : List UInt8) (o : Nat) :
    (ofBytes bytes).starts.getD ((ofBytes bytes).lineAt o) 0 = lineStart bytes o := by
  obtain ⟨hlt, hle, hlater⟩ := (bisect_ofBytes bytes o).2
  apply Nat.le_antisymm
  · rw [List.getD_eq_getElem _ 0 hlt] at hle ⊢
    exact le_lineStart (List.getElem_mem hlt) hle
  · obtain ⟨j, hj, hstart⟩ := List.getElem_of_mem (lineStart_mem_starts bytes o)
    rw [← hstart, ← List.getD_eq_getElem _ 0 hj]
    rcases Nat.lt_trichotomy j ((ofBytes bytes).lineAt o) with h | rfl | h
    · exact Nat.le_of_lt (ascending_ofBytes bytes _ _ h hlt)
    · exact Nat.le_refl _
    · have hbeyond := hlater j h hj
      rw [List.getD_eq_getElem _ 0 hj, hstart] at hbeyond
      exact absurd hbeyond (Nat.not_lt.2 (lineStart_le bytes o))

theorem point_ofBytes (bytes : List UInt8) {offset : Nat} (ho : min offset bytes.length = o) :
    (ofBytes bytes).point offset =
      ⟨UInt32.ofNat ((bytes.take o).count 10 + 1), UInt32.ofNat (o - lineStart bytes o)⟩ := by
  subst ho
  rw [point, starts_lineAt, lineAt_ofBytes]
  rfl

theorem toNat_column (h : o < UInt32.size) :
    (UInt32.ofNat (o - lineStart bytes o)).toNat = o - lineStart bytes o :=
  UInt32.toNat_ofNat_of_lt' (Nat.lt_of_le_of_lt (Nat.sub_le _ _) h)

theorem count_take_le (bytes : List UInt8) (o : Nat) : (bytes.take o).count 10 ≤ o :=
  Nat.le_trans List.count_le_length (List.length_take_le o bytes)

/-- Only the end of an overlong text has so many newlines before it that the number of its line,
counted from one, does not fit 32 bits. -/
theorem count_take_add_one_eq_iff (h : bytes.length < UInt32.size) (ho : o ≤ bytes.length) :
    (bytes.take o).count 10 + 1 = UInt32.size ↔ Overlong bytes ∧ o = bytes.length := by
  constructor
  · intro hcount
    have hle := count_take_le bytes o
    obtain rfl : o = bytes.length := by omega
    rw [List.take_length] at hcount hle
    have hall : bytes.count 10 = bytes.length := by omega
    exact ⟨⟨by omega, fun b hb => (List.count_eq_length.1 hall b hb).symm⟩, rfl⟩
  · rintro ⟨⟨hlength, hall⟩, rfl⟩
    rw [List.take_length, List.count_eq_length.2 fun b hb => (hall b hb).symm, hlength]

theorem toNat_line (h : bytes.length < UInt32.size) (ho : o ≤ bytes.length)
    (hfits : ¬ (Overlong bytes ∧ o = bytes.length)) :
    (UInt32.ofNat ((bytes.take o).count 10 + 1)).toNat = (bytes.take o).count 10 + 1 := by
  have hle := count_take_le bytes o
  have hne := mt (count_take_add_one_eq_iff h ho).1 hfits
  exact UInt32.toNat_ofNat_of_lt' (by omega)

theorem line_of_overlong (h : bytes.length < UInt32.size) (hover : Overlong bytes) :
    UInt32.ofNat ((bytes.take bytes.length).count 10 + 1) = 0 := by
  rw [(count_take_add_one_eq_iff h (Nat.le_refl _)).2 ⟨hover, rfl⟩]
  rfl

theorem lineStart_of_overlong (hover : Overlong bytes) :
    lineStart bytes bytes.length = bytes.length := by
  obtain ⟨n, hn⟩ : ∃ n, bytes.length = n + 1 :=
    Nat.exists_eq_succ_of_ne_zero fun h => absurd (h ▸ hover.1) (by decide)
  have hlast : bytes[n]? = some 10 := by
    rw [List.getElem?_eq_getElem (by omega), hover.2 _ (List.getElem_mem _)]
  rw [hn, lineStart, if_pos hlast]

theorem offsetOf_point (h : bytes.length < UInt32.size) {offset : Nat}
    (ho : min offset bytes.length = o) (hfits : ¬ (Overlong bytes ∧ o = bytes.length)) :
    (ofBytes bytes).offsetOf ((ofBytes bytes).point offset) = o := by
  have hstart := lineStart_le bytes o
  rw [point_ofBytes bytes ho, offsetOf, toNat_line h (by omega) hfits, Nat.add_sub_cancel,
    ← lineAt_ofBytes, starts_lineAt, toNat_column (by omega)]
  omega

theorem point_of_overlong (h : bytes.length < UInt32.size) (hover : Overlong bytes) {offset : Nat}
    (ho : min offset bytes.length = bytes.length) : (ofBytes bytes).point offset = ⟨0, 0⟩ := by
  rw [point_ofBytes bytes ho, line_of_overlong h hover, lineStart_of_overlong hover, Nat.sub_self]
  rfl

theorem lines_or_columns_lt (bytes : List UInt8) {a b : Nat} (hab : a < b) :
    (bytes.take a).count 10 < (bytes.take b).count 10 ∨
      (bytes.take a).count 10 = (bytes.take b).count 10 ∧
        a - lineStart bytes a < b - lineStart bytes b := by
  have hle : (bytes.take a).count 10 ≤ (bytes.take b).count 10 :=
    (List.take_sublist_take_left (Nat.le_of_lt hab)).count_le 10
  rcases Nat.lt_or_eq_of_le hle with hlt | heq
  · exact .inl hlt
  · have hstart : lineStart bytes a = lineStart bytes b := by
      rw [← starts_lineAt, ← starts_lineAt, lineAt_ofBytes, lineAt_ofBytes, heq]
    have := lineStart_le bytes a
    exact .inr ⟨heq, by omega⟩

theorem point_before_point (h : bytes.length < UInt32.size) {a b : Nat} (hab : a < b)
    (hb : b ≤ bytes.length) (hfits : ¬ (Overlong bytes ∧ b = bytes.length)) :
    (ofBytes bytes).point a ≤ (ofBytes bytes).point b ∧
      ¬ (ofBytes bytes).point b ≤ (ofBytes bytes).point a := by
  have ha : a ≤ bytes.length := by omega
  have hfits' : ¬ (Overlong bytes ∧ a = bytes.length) := fun hover => by omega
  rw [point_ofBytes bytes (Nat.min_eq_left hb), point_ofBytes bytes (Nat.min_eq_left ha),
    Point.le_iff, Point.le_iff, toNat_line h hb hfits, toNat_line h ha hfits',
    toNat_column (by omega), toNat_column (by omega)]
  rcases lines_or_columns_lt bytes hab with hlt | ⟨heq, hlt⟩ <;> omega

theorem point_length_le_of_overlong (h : bytes.length < UInt32.size) (hover : Overlong bytes) :
    (ofBytes bytes).point bytes.length ≤ (ofBytes bytes).point 0 := by
  rw [point_of_overlong h hover (Nat.min_self _), Point.le_iff]
  simp only [UInt32.toNat_zero]
  omega

/-- The line table of a text is exact but for one offset of one text. It has one line more than
there are newlines. The column of the point of an offset, which counts as the end of the text where
it lies beyond, is the distance from the start of the line, and nothing that is looked up or
subtracted on the way is out of range. The line is the one after as many newlines as come before
the offset, and the offset can be recovered from the point, just if the offset is not the end of an
overlong text; points increase strictly with the offsets just if the text is not overlong. -/
theorem point_exact_iff (text : String) (h : text.utf8ByteSize < UInt32.size) :
    (ofText text).lineCount = 1 + (bytesOf text).count 10 ∧
    (∀ offset o : Nat, min offset (bytesOf text).length = o →
      ((ofText text).point offset).column.toNat = o - lineStart (bytesOf text) o ∧
      (bisect (ofText text).starts o 0 (ofText text).starts.length ≠ .error 0 ∧
        (ofText text).lineAt o < (ofText text).lineCount ∧
        (ofText text).starts.getD ((ofText text).lineAt o) 0 ≤ o) ∧
      (((ofText text).point offset).line.toNat = 1 + ((bytesOf text).take o).count 10 ↔
        ¬ (Overlong (bytesOf text) ∧ o = (bytesOf text).length)) ∧
      ((ofText text).offsetOf ((ofText text).point offset) = o ↔
        ¬ (Overlong (bytesOf text) ∧ o = (bytesOf text).length))) ∧
    ((∀ a b, a < b → b ≤ (bytesOf text).length →
        (ofText text).point a ≤ (ofText text).point b ∧
          ¬ (ofText text).point b ≤ (ofText text).point a) ↔
      ¬ Overlong (bytesOf text)) := by
  have hlength : (bytesOf text).length < UInt32.size := h
  simp only [ofText]
  generalize bytesOf text = bytes at hlength ⊢
  refine ⟨?_, fun offset o ho => ⟨?_, ?_, ⟨fun hline => ?_, fun hfits => ?_⟩,
    ⟨fun hback => ?_, offsetOf_point hlength ho⟩⟩, ⟨fun hall hover => ?_, fun hnot a b hab hb => ?_⟩⟩
  · rw [lineCount, ofBytes, List.length_cons, length_startsAfter, Nat.add_comm]
  · rw [point_ofBytes bytes ho]
    exact toNat_column (by omega)
  · obtain ⟨hmiss, hlt, hle, -⟩ := bisect_ofBytes bytes o
    exact ⟨hmiss, hlt, hle⟩
  · rintro ⟨hover, rfl⟩
    rw [point_of_overlong hlength hover ho] at hline
    exact absurd hline (by simp [Nat.add_comm 1])
  · rw [point_ofBytes bytes ho, toNat_line hlength (by omega) hfits, Nat.add_comm]
  · rintro ⟨hover, rfl⟩
    rw [point_of_overlong hlength hover ho, offsetOf] at hback
    have hzero : bytes.length = 0 := hback.symm
    exact absurd hover.1 (by rw [hzero]; decide)
  · have hpos : 0 < bytes.length := Nat.pos_of_ne_zero fun hzero =>
      absurd hover.1 (by rw [hzero]; decide)
    exact (hall 0 bytes.length hpos (Nat.le_refl _)).2 (point_length_le_of_overlong hlength hover)
  · exact point_before_point hlength hab hb fun hover => hnot hover.1

/-- A letter, an empty line, and a letter at its end. -/
theorem point_exact_emptyLine :
    "a\n\nb".utf8ByteSize < UInt32.size ∧ (ofText "a\n\nb").lineCount = 3 ∧
    ((ofText "a\n\nb").point 2).line.toNat = 2 ∧ ((ofText "a\n\nb").point 2).column.toNat = 0 ∧
    ((ofText "a\n\nb").point 9).line.toNat = 3 ∧ ((ofText "a\n\nb").point 9).column.toNat = 1 ∧
    (ofText "a\n\nb").offsetOf ((ofText "a\n\nb").point 9) = 4 ∧
    (ofText "a\n\nb").point 1 ≤ (ofText "a\n\nb").point 2 := by
  have hsize : "a\n\nb".utf8ByteSize < UInt32.size := by decide
  have hbytes : bytesOf "a\n\nb" = [97, 10, 10, 98] := by decide
  have hnot : ¬ Overlong [97, 10, 10, 98] := fun hover => absurd hover.1 (by decide)
  obtain ⟨hcount, hpoint, horder⟩ := point_exact_iff "a\n\nb" hsize
  rw [hbytes] at hcount hpoint horder
  obtain ⟨hcolumn, -, hline, -⟩ := hpoint 2 2 rfl
  obtain ⟨hcolumn', -, hline', hback⟩ := hpoint 9 4 rfl
  exact ⟨hsize, hcount, hline.2 fun hover => hnot hover.1, hcolumn,
    hline'.2 fun hover => hnot hover.1, hcolumn', hback.2 fun hover => hnot hover.1,
    (horder.2 hnot 1 2 (by decide) (by decide)).1⟩

def newlines (n : Nat) : String := String.ofList (List.replicate n '\n')

theorem bytesOf_newlines (n : Nat) : bytesOf (newlines n) = List.replicate n 10 := by
  have hencode : (List.replicate n '\n').flatMap String.utf8EncodeChar = List.replicate n 10 := by
    induction n with
    | zero => rfl
    | succ n ih => rw [List.replicate_succ, List.flatMap_cons, ih]; rfl
  rw [bytesOf, newlines, String.toUTF8_eq_toByteArray, String.toByteArray_ofList, List.utf8Encode,
    hencode, List.data_toByteArray]

theorem overlong_replicate {n : Nat} (hn : n + 1 = UInt32.size) : Overlong (List.replicate n 10) :=
  ⟨by rw [List.length_replicate, hn], fun _ hb => List.eq_of_mem_replicate hb⟩

/-- The end of the longest text of newlines is put on a line zero, before the beginning of the text,
although all its bytes come before it. -/
theorem point_newlines : (newlines (UInt32.size - 1)).utf8ByteSize < UInt32.size ∧
    ((bytesOf (newlines (UInt32.size - 1))).take (UInt32.size - 1)).count 10 = UInt32.size - 1 ∧
    ((ofText (newlines (UInt32.size - 1))).point (UInt32.size - 1)).line.toNat = 0 ∧
    (ofText (newlines (UInt32.size - 1))).point (UInt32.size - 1) ≤
      (ofText (newlines (UInt32.size - 1))).point 0 := by
  obtain ⟨n, hn⟩ : ∃ n, n = UInt32.size - 1 := ⟨_, rfl⟩
  have hsize : n + 1 = UInt32.size := by rw [hn]; decide
  have hbytes := bytesOf_newlines n
  have hlength : (bytesOf (newlines n)).length = n := by rw [hbytes, List.length_replicate]
  have hover : Overlong (bytesOf (newlines n)) := hbytes ▸ overlong_replicate hsize
  have hlt : (bytesOf (newlines n)).length < UInt32.size := by omega
  rw [← hn, ofText]
  refine ⟨hlt, ?_, ?_, ?_⟩
  · rw [hbytes, List.take_replicate, Nat.min_self, List.count_replicate_self]
  · rw [point_of_overlong hlt hover (by omega)]
    rfl
  · have hle := point_length_le_of_overlong hlt hover
    rwa [hlength] at hle

end TreeInterchange.LineTable
