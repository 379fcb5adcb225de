import OsSolutions.Verification.Readers.Course

/-! # The output of `ex2/q1` is the output of `ex1/q1` -/

namespace OsSolutions.Readers

open OsSolutions.Polygon Transition

variable {st : State} {entries : List Entry}

/-! ## Inputs -/

/-- The word on lines of its own, behind the number of its form. -/
def Entry.lines (e : Entry) : Text :=
  match e.width with
  | .w32 =>
      10 :: 51 :: 50 :: 10 :: (hexDigits (e.word &&& 0xffffffff).toNat ++
        10 :: hexDigits (e.word >>> 32).toNat)
  | .w64 => 10 :: 54 :: 52 :: 10 :: hexDigits e.word.toNat

def linesOf (entries : List Entry) : Text := entries.flatMap Entry.lines

theorem linesOf_head (entries : List Entry) : ∀ c ∈ (linesOf entries).head?, isspace c = true := by
  cases entries with
  | nil => simp [linesOf]
  | cons e es =>
      intro c hc
      obtain rfl : c = 10 := by
        cases hw : e.width <;> simpa [linesOf, Entry.lines, hw] using hc.symm
      rfl

theorem newline_isspace : ∀ c ∈ [(10 : UInt8)], isspace c = true := by simp [isspace]

/-- A field width of the length of the text is no limit. -/
theorem scanLong_hexDigits (w : UInt64) {rest : Text}
    (hrest : ∀ c ∈ rest.head?, isspace c = true) :
    scanLong (10 :: (hexDigits w.toNat ++ rest)) = (some w, rest) := by
  have hlen : (hexDigits w.toNat).length ≤ (10 :: (hexDigits w.toNat ++ rest)).length := by
    simp only [List.length_cons, List.length_append]
    omega
  exact scanHex_hexDigits newline_isspace w hlen hrest

/-- Every list of words in every choice of forms can be given to the program. -/
theorem reads_linesOf (entries : List Entry) : ReadsEntries (linesOf entries) entries := by
  induction entries with
  | nil => trivial
  | cons e es ih =>
      obtain ⟨width, word⟩ := e
      have hhead := linesOf_head es
      cases width with
      | w32 =>
          let high : Text := 10 :: (hexDigits (word >>> 32).toNat ++ linesOf es)
          let body : Text := hexDigits (word &&& 0xffffffff).toNat ++ high
          have hsplit : linesOf (⟨.w32, word⟩ :: es) = 10 :: 51 :: 50 :: 10 :: body := by
            simp [body, high, linesOf, Entry.lines]
          refine ⟨32, 10 :: body, linesOf es, ?_, by simp, ⟨high, ?_, ?_⟩, ih⟩
          · rw [hsplit]
            rfl
          · exact scanLong_hexDigits _ (by simp [high, isspace])
          · exact scanLong_hexDigits _ hhead
      | w64 =>
          have hsplit : linesOf (⟨.w64, word⟩ :: es) =
              10 :: 54 :: 52 :: 10 :: (hexDigits word.toNat ++ linesOf es) := by
            simp [linesOf, Entry.lines]
          refine ⟨64, 10 :: (hexDigits word.toNat ++ linesOf es), linesOf es, ?_,
            iff_of_false (by decide) (by simp), ?_, ih⟩
          · rw [hsplit]
            rfl
          · exact scanHex_hexDigits newline_isspace word (hexDigits_word_length word) hhead

/-! ## The two programs -/

/-- Whatever the schedule, the processes of `ex2/q1` all exit after finitely many steps. Once
`main` has left its loop, its output is the text that `ex1/q1` prints for the same words. -/
theorem same_output (entries : List Entry) (honly : OnlyLast (wordsOf entries))
    (text₁ text₂ : Text) (hwords : Reads scanHex16 text₁ (wordsOf entries))
    (hentries : ReadsEntries text₂ entries) (input : UInt64) (g : Garbage) (floats : Floats) :
    ∃ single, run Loop.step (Loop.start text₁ input) (List.replicate entries.length ()) =
        some single ∧ single.done = true ∧
      ∀ acts st, run State.step (start text₂ g) acts = some st →
        acts.length ≤ stepsFor entries + 13 ∧
        (st.Finished ∨ ∃ a, (st.step a).isSome = true) ∧
        (st.main.left = true → st.polygons.text floats = single.polygons.text floats) := by
  have hlen : (wordsOf entries).length = entries.length := List.length_map _
  obtain ⟨single, hsingle, hafter, _, hdone⟩ := run_after honly hwords input (Nat.le_refl _)
  rw [List.take_length] at hafter
  rw [hlen] at hsingle hdone
  refine ⟨single, hsingle, hdone.mpr rfl, ?_⟩
  intro acts st hrun
  obtain ⟨hcourse, hsteps⟩ := (course_start g honly hentries).run honly hrun
  have hstart : (start text₂ g).toGo entries = stepsFor entries + 13 := rfl
  refine ⟨by omega, hcourse.moves, ?_⟩
  intro hleft
  have hst := hcourse.lockstep.after.out
  rw [hcourse.lockstep.ended hleft, List.take_length] at hst
  rw [Polygons.text, Polygons.text, hst, hafter.out]

/-- A triangle in two halves, and a square that ends the input and runs on both. -/
theorem same_output_two :
    ∃ single, run Loop.step (Loop.start (OsSolutions.Polygon.linesOf [0x3a, 0xcf]) 0)
        (List.replicate 2 ()) = some single ∧ single.done = true ∧
      ∀ acts st, run State.step
          (start (linesOf [⟨.w32, 0x3a⟩, ⟨.w64, 0xcf⟩]) ⟨0, 0, 0, 0, fun _ => 0⟩) acts = some st →
        acts.length ≤ stepsFor [⟨.w32, 0x3a⟩, ⟨.w64, 0xcf⟩] + 13 ∧
        (st.Finished ∨ ∃ a, (st.step a).isSome = true) ∧
        (st.main.left = true → st.polygons.text ⟨fun _ => "", fun _ => ""⟩ =
          single.polygons.text ⟨fun _ => "", fun _ => ""⟩) :=
  same_output [⟨.w32, 0x3a⟩, ⟨.w64, 0xcf⟩] ⟨[0x3a], 0xcf, rfl,
    fun w hw => by rw [List.mem_singleton.mp hw]; decide, by decide⟩ _ _
    (OsSolutions.Polygon.reads_linesOf _) (reads_linesOf _) 0 _ _

end OsSolutions.Readers
