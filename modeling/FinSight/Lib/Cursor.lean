import FinSight.Db.Timestamptz
import FinSight.Db.Types
import FinSight.Js.Base64
import FinSight.Js.IsoDate

/-!
# `lib/cursor.js`

The cursors of the three lists, as base64url.

* `encodeCursor`, `decodeCursor` : an ISO string and an id;
* `encodeSequenceCursor`, `decodeSequenceCursor` : a sequence number;
* `encodeTimestampCursor`, `decodeTimestampCursor` : a timestamp as Postgres renders it and an id.
-/

namespace FinSight

/-- `Date.UTC` takes a year of two digits for one of the twentieth century. -/
def Date.utcYear (year : Nat) : Int := if year ≤ 99 then 1900 + year else year

/-- `Date.UTC(year, month - 1, day, hour, minute, second)`. -/
def Date.utc (year month day hour minute second : Nat) : Date :=
  ⟨(Date.utcDay (utcYear year) month day * 86400 + hour * 3600 + minute * 60 + second) * 1000⟩

def Date.getUTCMonth (d : Date) : Int := (Date.civil (d.time / 86400000)).month - 1

def Date.getUTCDate (d : Date) : Nat := (Date.civil (d.time / 86400000)).day

/-- `/^[0-9a-f]{8}-[0-9a-f]{4}-[0-9a-f]{4}-[0-9a-f]{4}-[0-9a-f]{12}$/i`. -/
def readUuid (t : Text) : Option UuidText :=
  let hex := t.filter fun u => u != unit '-'
  if h : hex.length = 32 ∧ ∀ u ∈ hex, (hexValue u).isSome then
    if (UuidText.mk hex h).text = t then some ⟨hex, h⟩ else none
  else none

namespace Cursor

variable (B : Buffers)

/-! ## Entries -/

structure EntryKey where
  occurredAt : Date
  id : Text
  deriving DecidableEq

def encodeCursor (c : EntryKey) : Text := B.encode (c.occurredAt.isoString ++ unit '|' :: c.id)

def decodeCursor (P : DateParser) (cursor : Text) : Option EntryKey :=
  match (B.decode cursor).splitOn (unit '|') with
  | ts :: id :: _ => (P.parse ts).bind fun occurredAt => if id = [] then none else some { occurredAt, id }
  | _ => none

/-! ## Invoices -/

def encodeSequenceCursor (sequenceNumber : Int) : Text := B.encode (decimalInt sequenceNumber)

def decodeSequenceCursor (cursor : Text) : Option Int :=
  let raw := B.decode cursor
  if raw ≠ [] ∧ ∀ u ∈ raw, IsDigit u then some (decimalValue raw : Int) else none

/-! ## Documents -/

structure DocumentKey where
  createdAtText : Text
  id : Text
  deriving DecidableEq

def encodeTimestampCursor (c : DocumentKey) : Text := B.encode (c.createdAtText ++ unit '|' :: c.id)

/-- The calendar check, through `Date.UTC`. -/
def checkCalendar (s : Stamp) : Bool :=
  let check := Date.utc s.year s.month s.day s.hour s.minute s.second
  !(check.getUTCMonth != s.month.val - 1 || check.getUTCDate != s.day || s.hour.val > 23 || s.minute.val > 59 ||
    s.second.val > 59)

def decodeTimestampCursor (cursor : Text) : Option DocumentKey :=
  match (B.decode cursor).splitOn (unit '|') with
  | [ts, id] =>
      if ts = [] ∨ id = [] ∨ readUuid id = none then none
      else (Stamp.read ts).bind fun s => if checkCalendar s then some { createdAtText := ts, id } else none
  | _ => none

end Cursor

theorem filter_dash_text (u : UuidText) : u.text.filter (fun c => c != unit '-') = u.hex := by
  have hhex : ∀ n, (u.hex.drop n).filter (fun c => c != unit '-') = u.hex.drop n := by
    refine fun n => List.filter_eq_self.mpr fun c hc => ?_
    have hvalid := u.valid.2 c (List.mem_of_mem_drop hc)
    rw [bne_iff_ne]
    rintro rfl
    exact absurd hvalid (by decide)
  have htake : ∀ n k, ((u.hex.drop n).take k).filter (fun c => c != unit '-') = (u.hex.drop n).take k := by
    refine fun n k => List.filter_eq_self.mpr fun c hc => ?_
    exact List.filter_eq_self.mp (hhex n) c (List.mem_of_mem_take hc)
  have hfirst := htake 0 8
  rw [List.drop_zero] at hfirst
  have hdash : ∀ t : Text, (unit '-' :: t).filter (fun c => c != unit '-') = t.filter fun c => c != unit '-' := fun t => rfl
  rw [UuidText.text, List.filter_append, hfirst, hdash, List.filter_append, htake, hdash, List.filter_append, htake,
    hdash, List.filter_append, htake, hdash, hhex]
  have hgroup (k : Nat) : (u.hex.drop k).take 4 ++ u.hex.drop (k + 4) = u.hex.drop k := by
    rw [← List.drop_drop, List.take_append_drop]
  rw [hgroup 16, hgroup 12, hgroup 8, List.take_append_drop]

theorem readUuid_eq_some {t : Text} {u : UuidText} : readUuid t = some u ↔ t = u.text := by
  rw [readUuid]
  constructor
  · intro h
    split at h
    · split at h
      · next htext =>
        rw [← Option.some.inj h, htext]
      · cases h
    · cases h
  · rintro rfl
    obtain ⟨hex, hvalid⟩ := u
    simp only [filter_dash_text]
    rw [dif_pos hvalid, if_pos trivial]

end FinSight
