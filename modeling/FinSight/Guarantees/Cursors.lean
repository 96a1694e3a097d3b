import FinSight.Lib.Cursor

/-!
# Tampered document cursors

The regular expression lets through the year 0, which `Date.UTC` takes for 1900, and offsets of any digits.

* `decodeTimestampCursor_eq_some` : what is accepted;
* `Damaged` : what is accepted and cannot be cast;
* `cursor_iff` : a cursor is cast or refused exactly where it is not damaged; what Postgres renders is read back;
  `not_every_cursor` : year 0.
-/

namespace FinSight.Cursor

variable (B : Buffers)

/-! ## The calendar check -/

theorem utc_day {s : Stamp} (htime : s.TimeInRange) :
    (Date.utc s.year s.month s.day s.hour s.minute s.second).time / 86400000 =
      Date.utcDay (Date.utcYear s.year) s.month s.day := by
  obtain ⟨hhour, hminute, hsecond⟩ := htime
  rw [Date.utc]
  dsimp only
  omega

/-- The date of a stamp, with 1900 in the place of the year 0. -/
def dateOf (s : Stamp) : Date.Civil := ⟨if s.year.val = 0 then 1900 else s.year.val, s.month, s.day⟩

/-- The years of two digits have the leap years of the twentieth century, but for the year 0. -/
theorem isDate_utcYear (s : Stamp) :
    Date.IsDate ⟨Date.utcYear s.year, s.month, s.day⟩ ↔ Date.IsDate (dateOf s) := by
  have hleap : Date.isLeap (Date.utcYear s.year) = Date.isLeap (dateOf s).year := by
    rw [Bool.eq_iff_iff, Date.utcYear, dateOf]
    simp only [Date.isLeap, decide_eq_true_iff]
    split <;> split <;> omega
  have hdays : Date.daysInMonth (Date.utcYear s.year) s.month = Date.daysInMonth (dateOf s).year s.month := by
    rw [Date.daysInMonth, Date.daysInMonth, hleap]
  rw [Date.IsDate, Date.IsDate]
  dsimp only
  rw [hdays]
  rfl

theorem checkCalendar_iff (s : Stamp) : checkCalendar s = true ↔ s.TimeInRange ∧ Date.IsDate (dateOf s) := by
  have hcheck : checkCalendar s = true ↔
      ((Date.utc s.year s.month s.day s.hour s.minute s.second).getUTCMonth = s.month.val - 1 ∧
        (Date.utc s.year s.month s.day s.hour s.minute s.second).getUTCDate = s.day) ∧ s.TimeInRange := by
    simp only [checkCalendar, Stamp.TimeInRange, Bool.not_eq_true', Bool.or_eq_false_iff, bne_eq_false_iff_eq,
      decide_eq_false_iff_not, Nat.not_lt, gt_iff_lt]
    tauto
  rw [hcheck, and_comm]
  refine and_congr_right fun htime => ?_
  rw [← isDate_utcYear, ← Date.utcDay_eq_iff, Date.getUTCMonth, Date.getUTCDate, utc_day htime]
  refine and_congr_left fun _ => ?_
  omega

/-! ## What is accepted -/

/-- The code units of a stamp. -/
def IsStampUnit (u : CodeUnit) : Prop := IsDigit u ∨ u ∈ text "-: .+"

theorem isStampUnit_text (s : Stamp) : ∀ u ∈ s.text, IsStampUnit u := by
  have hdigits : ∀ {n : Nat} (v : Fin (10 ^ n)), ∀ u ∈ digitsOf v, IsStampUnit u :=
    fun v u hu => Or.inl (isDigit_of_mem_padStart hu)
  have hmark : ∀ c : Char, unit c ∈ text "-: .+" → IsStampUnit (unit c) := fun c h => Or.inr h
  have hfraction : ∀ u ∈ s.fraction.text, IsStampUnit u := by
    rw [Fraction.text]
    split
    · exact fun u hu => by cases hu
    · exact List.forall_mem_cons.mpr ⟨hmark '.' (by decide), fun u hu => Or.inl (s.fraction.valid.2 u hu)⟩
  have hsign : ∀ u ∈ Stamp.signText s.negative, IsStampUnit u := by
    cases s.negative
    · exact List.forall_mem_singleton.mpr (hmark '+' (by decide))
    · exact List.forall_mem_singleton.mpr (hmark '-' (by decide))
  have hrest : ∀ u ∈ Stamp.restText s.zoneRest, IsStampUnit u := by
    rcases s.zoneRest with _ | ⟨m, _ | n⟩
    · exact fun u hu => by cases hu
    · exact List.forall_mem_cons.mpr ⟨hmark ':' (by decide), hdigits m⟩
    · refine List.forall_mem_cons.mpr ⟨hmark ':' (by decide), List.forall_mem_append.mpr ⟨hdigits m, ?_⟩⟩
      exact List.forall_mem_cons.mpr ⟨hmark ':' (by decide), hdigits n⟩
  simp only [Stamp.text, List.forall_mem_append, List.forall_mem_cons]
  exact ⟨hdigits _, hmark '-' (by decide), hdigits _, hmark '-' (by decide), hdigits _, hmark ' ' (by decide), hdigits _,
    hmark ':' (by decide), hdigits _, hmark ':' (by decide), hdigits _, hfraction, hsign, hdigits _, hrest⟩

theorem bar_not_mem_text (s : Stamp) : unit '|' ∉ s.text :=
  fun h => absurd (isStampUnit_text s _ h) (by rw [IsStampUnit]; decide)

theorem isPlain_text (s : Stamp) : ∀ u ∈ s.text, IsPlain u := by
  have hmarks : ∀ u ∈ text "-: .+", IsPlain u := by decide
  intro u hu
  rcases isStampUnit_text s u hu with hdigit | hmark
  · rw [isPlain_iff]
    exact Or.inl (hdigit.2.trans_lt (by decide))
  · exact hmarks u hmark

theorem uuidText_units (u : UuidText) : ∀ c ∈ u.text, (hexValue c).isSome ∨ c = unit '-' := by
  intro c hc
  by_cases hdash : c = unit '-'
  · exact Or.inr hdash
  · have hkept : c ∈ u.text.filter fun v => v != unit '-' := List.mem_filter.mpr ⟨hc, bne_iff_ne.mpr hdash⟩
    rw [filter_dash_text] at hkept
    exact Or.inl (u.valid.2 c hkept)

theorem bar_not_mem_uuidText (u : UuidText) : unit '|' ∉ u.text :=
  fun h => absurd (uuidText_units u _ h) (by decide)

theorem isPlain_uuidText (u : UuidText) : ∀ c ∈ u.text, IsPlain c := by
  intro c hc
  rcases uuidText_units u c hc with hhex | rfl
  · obtain ⟨x, hx⟩ := Option.isSome_iff_exists.mp hhex
    rw [isPlain_iff]
    exact Or.inl ((printable_of_hexValue hx).2.trans_lt (by decide))
  · decide

theorem bar_not_mem_uuid (u : Uuid) : unit '|' ∉ u.text := bar_not_mem_uuidText u.spelled

theorem isPlain_uuid (u : Uuid) : ∀ c ∈ u.text, IsPlain c := isPlain_uuidText u.spelled

/-- A text with one bar is cut there. -/
theorem splitOn_bar {x y : Text} (hx : unit '|' ∉ x) (hy : unit '|' ∉ y) :
    (x ++ unit '|' :: y).splitOn (unit '|') = [x, y] := by
  have hpiece : ∀ {t : Text}, unit '|' ∉ t → ∀ u ∈ t, (u == unit '|') = false := by
    intro t ht u hu
    rw [beq_eq_false_iff_ne]
    rintro rfl
    exact ht hu
  rw [List.splitOn, List.splitOnP_append_cons x y (by rw [beq_self_eq_true]), List.splitOnP_eq_singleton (hpiece hx),
    List.splitOnP_eq_singleton (hpiece hy)]
  rfl

theorem eq_of_splitOn_bar {t x y : Text} (h : t.splitOn (unit '|') = [x, y]) : t = x ++ unit '|' :: y := by
  have hjoin : [unit '|'].intercalate (t.splitOn (unit '|')) = t := List.intercalate_splitOn _
  rw [← hjoin, h]
  simp [List.intercalate]

/-- **What is accepted.** -/
theorem decodeTimestampCursor_eq_some {cursor : Text} {k : DocumentKey} :
    decodeTimestampCursor B cursor = some k ↔
      ∃ (s : Stamp) (u : UuidText), B.decode cursor = s.text ++ unit '|' :: u.text ∧ k = ⟨s.text, u.text⟩ ∧
        s.TimeInRange ∧ Date.IsDate (dateOf s) := by
  constructor
  · intro h
    rw [decodeTimestampCursor] at h
    split at h
    · next ts id hsplit =>
      split at h
      · cases h
      · next hkept =>
        rw [not_or, not_or, ← Ne, ← Ne, ← Ne, Option.ne_none_iff_exists'] at hkept
        obtain ⟨u, hu⟩ := hkept.2.2
        obtain ⟨s, hs, hk⟩ := Option.bind_eq_some_iff.mp h
        split at hk
        · next hcheck =>
          obtain rfl := readUuid_eq_some.mp hu
          obtain rfl := Stamp.read_eq_some.mp hs
          exact ⟨s, u, eq_of_splitOn_bar hsplit, (Option.some.inj hk).symm, (checkCalendar_iff s).mp hcheck⟩
        · cases hk
    · cases h
  · rintro ⟨s, u, htext, rfl, hdate⟩
    have hne : ¬ (s.text = [] ∨ u.text = [] ∨ readUuid u.text = none) := by
      have hlength := u.length_text
      rw [readUuid_eq_some.mpr rfl]
      rintro (hs | hu | hnone)
      · have hbar := congrArg List.length hs
        simp [Stamp.text] at hbar
      · rw [hu] at hlength
        cases hlength
      · cases hnone
    rw [decodeTimestampCursor, htext, splitOn_bar (bar_not_mem_text s) (bar_not_mem_uuidText u)]
    dsimp only
    rw [if_neg hne, Stamp.read_eq_some.mpr rfl, Option.bind_some, if_pos ((checkCalendar_iff s).mpr hdate)]

/-! ## What is cast -/

/-- An existing time of day and, with 1900 for the year 0, an existing date; but the year is 0, or the offset is not one. -/
def Damaged (t : Text) : Prop :=
  ∃ (s : Stamp) (u : UuidText), t = s.text ++ unit '|' :: u.text ∧ s.TimeInRange ∧ Date.IsDate (dateOf s) ∧
    (s.year.val = 0 ∨ ¬ s.ZoneInRange)

/-- `createdAtText::timestamptz` and `id::uuid` are values. -/
def Casts (k : DocumentKey) : Prop := (timestamptzIn k.createdAtText).isSome ∧ (uuidIn k.id).isSome

theorem castable_iff {s : Stamp} (htime : s.TimeInRange) (hdate : Date.IsDate (dateOf s)) :
    s.Castable ↔ ¬ (s.year.val = 0 ∨ ¬ s.ZoneInRange) := by
  rw [Stamp.Castable, not_or, not_not, Nat.one_le_iff_ne_zero]
  constructor
  · exact fun h => ⟨h.1, h.2.2.2⟩
  · rintro ⟨hyear, hzone⟩
    rw [dateOf, if_neg hyear] at hdate
    exact ⟨hyear, hdate, htime, hzone⟩

theorem casts_iff {s : Stamp} (u : UuidText) (htime : s.TimeInRange) (hdate : Date.IsDate (dateOf s)) :
    Casts ⟨s.text, u.text⟩ ↔ ¬ (s.year.val = 0 ∨ ¬ s.ZoneInRange) := by
  rw [Casts, uuidIn_uuidText, timestamptzIn, Stamp.read_eq_some.mpr rfl, ← castable_iff htime hdate]
  dsimp only
  split
  · next h => exact iff_of_true ⟨rfl, rfl⟩ h
  · next h => exact iff_of_false (fun hsome => by cases hsome.1) h

theorem isWellFormed_documentKey (zone : Zone) (t : Timestamp) (u : Uuid) :
    isWellFormed (timestamptzOut zone t ++ unit '|' :: u.text) = true :=
  isWellFormed_plain (List.forall_mem_append.mpr
    ⟨isPlain_text _, List.forall_mem_cons.mpr ⟨by decide, isPlain_uuid u⟩⟩)

/-- What the list writes is read back. -/
theorem decode_encodeTimestampCursor {zone : Zone} {t : Timestamp} (u : Uuid)
    (hyear : 1 ≤ yearIn zone t ∧ yearIn zone t ≤ 9999) :
    decodeTimestampCursor B (encodeTimestampCursor B ⟨timestamptzOut zone t, u.text⟩) =
      some ⟨timestamptzOut zone t, u.text⟩ := by
  have hcast := castable_of hyear
  have hdate : Date.IsDate (dateOf (Stamp.of zone t)) := by
    have hne : (Stamp.of zone t).year.val ≠ 0 := Nat.one_le_iff_ne_zero.mp hcast.1
    rw [dateOf, if_neg hne]
    exact hcast.2.1
  have hwf := isWellFormed_documentKey zone t u
  rw [decodeTimestampCursor_eq_some, encodeTimestampCursor]
  exact ⟨Stamp.of zone t, u.spelled, B.decode_encode _ hwf, rfl, hcast.2.2.1, hdate⟩

/-- **A cursor is refused or cast exactly where it is not damaged, and what Postgres renders is read back.** -/
theorem cursor_iff :
    (∀ cursor, (∀ k, decodeTimestampCursor B cursor = some k → Casts k) ↔ ¬ Damaged (B.decode cursor)) ∧
      ∀ (zone : Zone) (t : Timestamp) (u : Uuid), 1 ≤ yearIn zone t → yearIn zone t ≤ 9999 →
        decodeTimestampCursor B (encodeTimestampCursor B ⟨timestamptzOut zone t, u.text⟩) =
          some ⟨timestamptzOut zone t, u.text⟩ := by
  refine ⟨fun cursor => ?_, fun zone t u hlow hhigh => decode_encodeTimestampCursor B u ⟨hlow, hhigh⟩⟩
  constructor
  · rintro h ⟨s, u, htext, htime, hdate, hbad⟩
    have hcasts := h ⟨s.text, u.text⟩ ((decodeTimestampCursor_eq_some B).mpr ⟨s, u, htext, rfl, htime, hdate⟩)
    exact (casts_iff u htime hdate).mp hcasts hbad
  · rintro h k hk
    obtain ⟨s, u, htext, rfl, htime, hdate⟩ := (decodeTimestampCursor_eq_some B).mp hk
    exact (casts_iff u htime hdate).mpr fun hbad => h ⟨s, u, htext, htime, hdate, hbad⟩

theorem cursor_iff_epoch :
    decodeTimestampCursor .node (encodeTimestampCursor .node ⟨timestamptzOut ⟨3600, by decide⟩ 0, (Uuid.mk 0).text⟩) =
      some ⟨timestamptzOut ⟨3600, by decide⟩ 0, (Uuid.mk 0).text⟩ :=
  (cursor_iff .node).2 ⟨3600, by decide⟩ 0 ⟨0⟩ (by decide) (by decide)

/-- The first day of the year 0. -/
theorem not_every_cursor : ¬ ∀ cursor k, decodeTimestampCursor .node cursor = some k → Casts k := by
  intro h
  have hcasts := h (text "MDAwMC0wMS0wMSAwMDowMDowMCswMHwwMDAwMDAwMC0wMDAwLTAwMDAtMDAwMC0wMDAwMDAwMDAwMDA")
    ⟨text "0000-01-01 00:00:00+00", text "00000000-0000-0000-0000-000000000000"⟩ (by decide +kernel)
  exact absurd hcasts.1 (by decide +kernel)

end FinSight.Cursor
