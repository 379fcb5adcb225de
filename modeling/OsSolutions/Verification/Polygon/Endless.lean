import OsSolutions.Transition.Registers
import OsSolutions.Verification.Polygon.Meaning
import OsSolutions.Verification.Text.Progress

/-! # When the main loop of `ex1/q1` ends

A pass runs on the word in `input`, whether its `scanf` has stored one or not. So the text
ends the loop only with a word that has bit 0 set. -/

namespace OsSolutions.Polygon

open Transition

/-! ## The words of the passes -/

/-- The text as the source of `input`: a reading is the `scanf` of one pass. -/
def words : Source Text Unit UInt64 where
  next s := (scanHex16 s).2
  name _ := ()
  value s := (scanHex16 s).1

/-- What the loop has done after `k` passes, whatever it has read. -/
structure Passed (stdin : Text) (input : UInt64) (k : ℕ) (st : Loop) : Prop where
  stdin_eq : st.stdin = words.next^[k] stdin
  input_eq : st.input = words.vars stdin (fun _ => input) k ()
  after : ∃ ws, st.polygons.After ws

theorem Passed.step {stdin : Text} {input : UInt64} {k : ℕ} {st : Loop}
    (h : Passed stdin input k st) (hnot : st.done = false) :
    ∃ st', st.step () = some st' ∧ Passed stdin input (k + 1) st' ∧
      st'.done = bit (words.found stdin (fun _ => input) k) 0 := by
  obtain ⟨ws, hafter⟩ := h.after
  have hfound : (scanHex16 st.stdin).1.getD st.input = words.found stdin (fun _ => input) k := by
    rw [Source.found_eq, h.stdin_eq, h.input_eq]
    rfl
  obtain ⟨polygons, hrun, hafter'⟩ := hafter.runOnPolygon (words.found stdin (fun _ => input) k)
  refine ⟨⟨(scanHex16 st.stdin).2, words.found stdin (fun _ => input) k, polygons,
    bit (words.found stdin (fun _ => input) k) 0⟩, ?_, ⟨?_, rfl, _, hafter'⟩, rfl⟩
  · simp [Loop.step, hnot, hfound, hrun]
  · rw [Function.iterate_succ_apply', ← h.stdin_eq]
    rfl

/-- What the calls of `scanf` store, one after the other. Behind as many calls as the text is
long they repeat. -/
def scans (stdin : Text) : List (Option UInt64) :=
  (words.readings stdin (stdin.length + 1)).map Prod.snd

end OsSolutions.Polygon
