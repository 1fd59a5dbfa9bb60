import SvrFrame.Log.Escape
import SvrFrame.Log.Reading

namespace SvrFrame
namespace LogFormatter
set_option autoImplicit true

/-- `localtime_r`, and the whole text that `strftime` makes of a format. -/
structure DateLib where
  Tm : Type
  localtime : UInt64 → Option Tm
  strftime : String → Tm → String

/-- The formatting where the local variables of `DateTimeFormatItem::format` hold `tm` and `buf`
as long as nothing has been written to them. -/
def DateLib.env (lib : DateLib) (tm : lib.Tm) (buf : String) (getName : LoggerId → String) :
    FormatEnv :=
  ⟨dateText (fun fmt t => lib.strftime fmt ((lib.localtime t).getD tm)) fun _ _ => buf, getName⟩

def dateFormat (fmt : String) : String := if fmt = "" then "%Y-%m-%d %H:%M:%S" else fmt

/-- The item renders the whole text of the format for the local time of the event, whatever the
local variables have held. -/
def RendersDate (lib : DateLib) (item : FormatItem) (fmt : String) (event : LogEvent) : Prop :=
  ∃ now, lib.localtime event.mTime = some now ∧ ∀ tm buf getName level,
    item.format (lib.env tm buf getName) level event = lib.strftime fmt now

theorem format_newDateTime (lib : DateLib) {now : lib.Tm} (tm : lib.Tm) (buf : String)
    (getName : LoggerId → String) (h : lib.localtime event.mTime = some now) :
    (FormatItem.newDateTime fmt).format (lib.env tm buf getName) level event =
      if (lib.strftime (dateFormat fmt) now).utf8ByteSize < 64 then
        lib.strftime (dateFormat fmt) now
      else buf := by
  have hitem : FormatItem.newDateTime fmt = .dateTime (dateFormat fmt) := rfl
  simp only [hitem, FormatItem.format, DateLib.env, dateText, h, Option.getD_some]

theorem rendersDate_iff (lib : DateLib) (fmt : String) (event : LogEvent) :
    RendersDate lib (.newDateTime fmt) (dateFormat fmt) event ↔
      ∃ now, lib.localtime event.mTime = some now ∧
        (lib.strftime (dateFormat fmt) now).utf8ByteSize < 64 := by
  constructor
  · rintro ⟨now, hnow, h⟩
    apply Exists.intro now
    constructor
    · exact hnow
    · by_contra hlong
      have hbuf := h now (lib.strftime (dateFormat fmt) now ++ "x") (fun _ => "") .info
      rw [format_newDateTime lib _ _ _ hnow, if_neg hlong] at hbuf
      have hlen := congrArg String.length hbuf
      rw [String.length_append] at hlen
      have hone : "x".length = 1 := rfl
      omega
  · rintro ⟨now, hnow, hfits⟩
    apply Exists.intro now
    constructor
    · exact hnow
    · intro tm buf getName level
      rw [format_newDateTime lib tm buf getName hnow, if_pos hfits]

/-- In every pattern, a date directive renders the whole text of its format if and only if the time
of the event has a local time and the text is shorter than the buffer. -/
theorem date_in_full_iff (lib : DateLib) {pattern : String} {es es' : List Element}
    {arg : Option String} (h : Reading pattern.toList (es ++ .directive "d" arg :: es'))
    (event : LogEvent) :
    ∃ item, (new pattern).mItems = elementItems es ++ item :: elementItems es' ∧
      (RendersDate lib item (dateFormat (arg.getD "")) event ↔
        ∃ now, lib.localtime event.mTime = some now ∧
          (lib.strftime (dateFormat (arg.getD "")) now).utf8ByteSize < 64) := by
  apply Exists.intro (.newDateTime (arg.getD ""))
  constructor
  · rw [new_reading h, elementItems_directive]
    rfl
  · exact rendersDate_iff lib (arg.getD "") event

/-- The C library of a machine in 1970. -/
def epochLib : DateLib := ⟨Unit, fun _ => some (), fun fmt _ => epochText fmt 0⟩

/-- A pattern that is one date directive. -/
def datePattern (fmt : String) : String := "%d\x7b" ++ fmt ++ "\x7d"

theorem datePattern_reading (h : '}' ∉ fmt.toList) :
    Reading (datePattern fmt).toList [.directive "d" (some fmt)] := by
  have hname : ∀ x ∈ ['d'], nameChar x := nameChar_of_directive (by decide)
  have hopen : "%d\x7b".toList = ['%', 'd', '{'] := by decide
  have hclose : "\x7d".toList = ['}'] := by decide
  have hread := Reading.arg hname h .nil
  rw [String.ofList_toList] at hread
  rw [datePattern, String.toList_append, String.toList_append, hopen, hclose]
  exact hread

theorem date_in_full_hour : ∃ item, (new (datePattern "%H")).mItems = [item] ∧
    RendersDate epochLib item "%H" (shortEvent 0) := by
  have h : Reading (datePattern "%H").toList ([] ++ .directive "d" (some "%H") :: []) :=
    datePattern_reading (by decide)
  obtain ⟨item, hitems, hiff⟩ := date_in_full_iff epochLib h (shortEvent 0)
  exact ⟨item, hitems, hiff.2 ⟨(), rfl, by decide⟩⟩

def longFormat : String := String.ofList (List.replicate 64 'x')

/-- A text of sixty-four characters does not fit, and what the buffer has held is shown. -/
theorem long_date_is_stale :
    (new (datePattern longFormat)).format (epochLib.env () "stale" fun _ => "") .info
      (shortEvent 0) = "stale" := by
  have hclosed : '}' ∉ longFormat.toList := by
    have htext : longFormat.toList = List.replicate 64 'x' := String.toList_ofList
    intro hmem
    rw [htext] at hmem
    exact absurd (List.eq_of_mem_replicate hmem) (by decide)
  have hitems : elementItems [.directive "d" (some longFormat)] = [.newDateTime longFormat] := rfl
  have hlong : ¬ (epochLib.strftime (dateFormat longFormat) ()).utf8ByteSize < 64 := by decide
  have hnow : epochLib.localtime (shortEvent 0).mTime = some () := rfl
  rw [format, new_reading (datePattern_reading hclosed), hitems, List.foldl_cons, List.foldl_nil,
    String.empty_append, format_newDateTime epochLib () "stale" _ hnow]
  exact if_neg hlong

end LogFormatter
end SvrFrame
