import Trellis.Proofs.Markup.Balance
import Trellis.Proofs.Markup.Boundaries

/-!
# Where a scan stops

A scan that fails has read everything in front of a `<` at which nothing begins.
- `Stuck.not_mark`: no beginning of what is left is a mark,
- `scan_front`: what is in front of it, read alone, gives the same events, and then the ends of what is
  open there,
- `scan_errors_local`: the failure names that place, in bytes.
-/

namespace Trellis.Markup

section

variable {markup raw : String} {stack : List String} {es : List Event} {front rest : List Char}

/-- No beginning of what is left is a comment, an end tag or a start tag. -/
theorem Stuck.not_mark (h : Stuck raw stack rest) (tok behind : List Char) (m : Mark)
    (hrest : rest = tok ++ behind) : mark? tok ≠ some (m, []) := by
  intro hmark
  obtain ⟨tok', htok, hmore⟩ := mark?_append hmark
  rw [List.append_nil] at htok
  have hnone := h.noMark
  rw [hrest, htok, hmore behind] at hnone
  cases hnone

/-- A run over the whole markup, and then the ends of what is open. -/
theorem scan_of_run (h : Run (Text.lower raw) [] front es stack []) :
    scan (String.ofList front) raw = ⟨es ++ closeAll stack, none⟩ := by
  rw [← String.toList_ofList (l := front)] at h
  rw [h.scan_eq, scanFrom_nil]
  rfl

/-- **What is in front of the place where a run is stuck reads to its end**, with the same events. -/
theorem scan_front (h : Run (Text.lower raw) [] markup.toList es stack rest)
    (hstuck : Stuck (Text.lower raw) stack rest) :
    ∃ front, markup.toList = front ++ rest ∧
      scan (String.ofList front) raw = ⟨es ++ closeAll stack, none⟩ := by
  obtain ⟨front, hfront, hrun⟩ := h.cut hstuck.angle
  exact ⟨front, hfront, scan_of_run hrun⟩

/-- A failure names the byte at which what is left begins. -/
theorem failure_of_unread (hmarkup : markup.toList = front ++ rest)
    (h : (scan markup raw).unread = some rest) :
    (scan markup raw).failure markup =
      some (.scan (String.ofList front).utf8ByteSize (fragment rest)) := by
  have hsize : (String.ofList front).utf8ByteSize = Text.utf8Size front := by
    rw [← String.size_toByteArray, ← Text.toByteArray_utf8, List.size_toByteArray, Text.length_utf8]
  have hoffset : Text.utf8Size markup.toList - Text.utf8Size rest = Text.utf8Size front := by
    rw [hmarkup, ← Text.length_utf8, ← Text.length_utf8 rest, Text.utf8_append, List.length_append,
      Nat.add_sub_cancel, Text.length_utf8]
  rw [Scan.failure, h, Option.map_some, hoffset, hsize]

end

/-- **Failures of a scan are local.** The scan goes through the bytes of any markup to an end and cuts no
    character. A failure is at the byte of a `<` outside of raw bodies, at which no mark begins; what is
    in front of it reads alone, with the same events, until the end closes what is open there. -/
theorem scan_errors_local (markup raw : String) :
    Bytes.scan markup raw = .ok ((scan markup raw).events, (scan markup raw).failure markup) ∧
      ∀ error, (scan markup raw).failure markup = some error →
        ∃ front rest stack, markup.toList = front ++ rest ∧
          error = .scan (String.ofList front).utf8ByteSize (fragment rest) ∧
          Run (Text.lower raw) [] markup.toList (scan markup raw).events stack rest ∧
          Follows [] (scan markup raw).events stack ∧
          stack.head? ≠ some (Text.lower raw) ∧ rest.head? = some '<' ∧
          (∀ tok behind m, rest = tok ++ behind → mark? tok ≠ some (m, [])) ∧
          scan (String.ofList front) raw = ⟨(scan markup raw).events ++ closeAll stack, none⟩ := by
  refine ⟨Bytes.scan_utf8 markup raw, fun error herror => ?_⟩
  obtain ⟨es, stack, rest, hrun, ⟨-, hscan⟩ | ⟨hstuck, hscan⟩⟩ := scan_run markup raw
  · rw [hscan] at herror
    cases herror
  · obtain ⟨front, hmarkup, hfront⟩ := scan_front hrun hstuck
    have hunread : (scan markup raw).unread = some rest := by rw [hscan]
    have hfailure := failure_of_unread hmarkup hunread
    rw [hfailure] at herror
    cases herror
    rw [hscan]
    exact ⟨front, rest, stack, hmarkup, rfl, hrun, hrun.follows, hstuck.outside, hstuck.angle,
      hstuck.not_mark, hfront⟩

/-- A paragraph with a character of two bytes in front of a lone `<`. -/
theorem scan_errors_local_lone :
    Bytes.scan "<p>\u00e9<" "wxs" =
        .ok ([.opening "p" [] false, .text "\u00e9"], some (.scan 5 "<")) ∧
      ∃ front rest stack, "<p>\u00e9<".toList = front ++ rest ∧
        (String.ofList front).utf8ByteSize = 5 ∧
        Follows [] [.opening "p" [] false, .text "\u00e9"] stack ∧
        scan (String.ofList front) "wxs" =
          ⟨[.opening "p" [] false, .text "\u00e9"] ++ closeAll stack, none⟩ := by
  have hevents : (scan "<p>\u00e9<" "wxs").events = [.opening "p" [] false, .text "\u00e9"] := by
    decide +kernel
  have hfailure : (scan "<p>\u00e9<" "wxs").failure "<p>\u00e9<" = some (.scan 5 "<") := by
    decide +kernel
  obtain ⟨hbytes, hlocal⟩ := scan_errors_local "<p>\u00e9<" "wxs"
  obtain ⟨front, rest, stack, hmarkup, herror, -, hfollows, -, -, -, hfront⟩ := hlocal _ hfailure
  rw [hevents, hfailure] at hbytes
  rw [hevents] at hfollows hfront
  exact ⟨hbytes, front, rest, stack, hmarkup, (MarkupError.scan.inj herror).1.symm, hfollows, hfront⟩

end Trellis.Markup
