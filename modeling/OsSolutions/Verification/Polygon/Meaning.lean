import OsSolutions.Model.PolygonLoop
import OsSolutions.Pointers.Chain
import OsSolutions.Transition.Run
import OsSolutions.Verification.Polygon.Fields
import OsSolutions.Verification.Text.Hex

/-! # What the polygon program prints

The reports are those that the words ask for, on the polygons that came before. The linked
list holds these polygons in the order of the input. -/

namespace OsSolutions.Polygon

open Pointers Transition

/-! ## The meaning of a list of words -/

/-- The reports on `v` that the word `w` selects. -/
def selected (w v : UInt64) : List Report :=
  (if bit w 3 = true then [.vertices v] else []) ++
    (if bit w 4 = true then [.perimeter v] else []) ++
    (if bit w 5 = true then [.area v] else [])

/-- Whether a polygon is of the kind that a run-on field stands for. -/
def ofKind (field : ℕ) (v : UInt64) : Bool :=
  field = 3 ∨ field = 1 ∧ bit v 2 = false ∨ field = 2 ∧ bit v 2 = true

/-- The polygons among the words, in order. -/
def polygonsOf (ws : List UInt64) : List UInt64 := ws.filter fun v => bit v 1

/-- The reports for the word `w` that ends the list `upTo`. -/
def reportsOf (upTo : List UInt64) (w : UInt64) : List Report :=
  if runOnField w = 0 then selected w w
  else ((polygonsOf upTo).filter (ofKind (runOnField w))).flatMap (selected w)

/-- The output for the words `w₁, …, wₙ`: the reports of every word, one after the other. -/
def meaning (ws : List UInt64) : List Report :=
  (List.range ws.length).flatMap fun k =>
    match ws[k]? with
    | some w => reportsOf (ws.take (k + 1)) w
    | none => []

/-- The last word has bit 0 set, and no other. -/
def OnlyLast (ws : List UInt64) : Prop :=
  ∃ front last, ws = front ++ [last] ∧ (∀ w ∈ front, bit w 0 = false) ∧ bit last 0 = true

theorem OnlyLast.bit_iff {ws : List UInt64} (h : OnlyLast ws) {k : ℕ} (hk : k < ws.length) :
    bit ws[k] 0 = true ↔ k + 1 = ws.length := by
  obtain ⟨front, last, rfl, hfront, hlast⟩ := h
  simp only [List.length_append, List.length_singleton] at hk ⊢
  rcases Nat.lt_or_eq_of_le (Nat.le_of_lt_succ hk) with hlt | rfl
  · rw [List.getElem_append_left hlt, hfront _ (List.getElem_mem hlt)]
    constructor
    · intro hf
      cases hf
    · omega
  · simp [hlast]

theorem meaning_concat (ws : List UInt64) (w : UInt64) :
    meaning (ws ++ [w]) = meaning ws ++ reportsOf (ws ++ [w]) w := by
  have hbefore : ∀ k ∈ List.range ws.length,
      (match (ws ++ [w])[k]? with
        | some v => reportsOf ((ws ++ [w]).take (k + 1)) v
        | none => []) =
      match ws[k]? with
        | some v => reportsOf (ws.take (k + 1)) v
        | none => [] := by
    intro k hk
    have hlt : k < ws.length := List.mem_range.mp hk
    rw [List.getElem?_append_left hlt, List.take_append_of_le_length hlt]
  unfold meaning
  rw [List.length_append, List.length_singleton, List.range_succ, List.flatMap_append,
    List.flatMap_congr hbefore]
  have htake : (ws ++ [w]).take (ws.length + 1) = ws ++ [w] := List.take_of_length_le (by simp)
  simp [htake]

/-! ## The functions on one polygon -/

namespace Polygons

/-- The calls of `runAction` go through `polygon_functions`. -/
theorem runFunction_printer (st : Polygons) (w : UInt64) {func : Int8}
    (h : func = PRINT_POLYGON ∨ func = PERIMETER ∨ func = AREA) :
    runFunction func st w = some (runPrinter func st w) := by
  rcases h with rfl | rfl | rfl <;> rfl

theorem runAction_eq (st : Polygons) (w v : UInt64) :
    runAction (getAction w) st v = { st with out := st.out ++ selected w v } := by
  obtain ⟨hvertices, hperimeter, harea⟩ := action_iff w
  have hv : ∀ t, runPrinter PRINT_POLYGON t v = t.report (.vertices v) := fun _ => rfl
  have hp : ∀ t, runPrinter PERIMETER t v = t.report (.perimeter v) := fun _ => rfl
  have ha : ∀ t, runPrinter AREA t v = t.report (.area v) := fun _ => rfl
  simp only [runAction, selected, hvertices, hperimeter, harea, hv, hp, ha]
  cases bit w 3 <;> cases bit w 4 <;> cases bit w 5 <;> simp [report]

theorem shouldRun_eq (w v : UInt64) :
    shouldRunOnThisPolygon (getWhomRunOn w) (getPolygonType v) = ofKind (runOnField w) v := by
  have hfield : ∀ n < 4, ∀ square : Bool,
      shouldRunOnThisPolygon (Int8.ofNat n) (if square = true then SQUARE else TRIANGLE) =
        decide (n = 3 ∨ n = 1 ∧ square = false ∨ n = 2 ∧ square = true) := by decide +kernel
  rw [getWhomRunOn_eq, getPolygonType_eq]
  exact hfield _ (runOnField_lt w) (bit v 2)

/-! ## The list -/

/-- The list holds the words `ws` at the nodes `addrs`, each node once, and `tail` is the last
of them. -/
structure Stored (st : Polygons) (addrs : List ℕ) (ws : List UInt64) : Prop where
  chain : Chain (fun a => (st.node a).next) st.head addrs
  words : addrs.map (fun a => (st.node a).polygon) = ws
  tail : st.tail = addrs.getLast?
  nodup : addrs.Nodup
  allocated : ∀ a ∈ addrs, a < st.used
  length : addrs.length = st.used

theorem stored_empty : Stored empty [] [] := ⟨rfl, rfl, rfl, .nil, by simp, rfl⟩

variable {st : Polygons} {addrs : List ℕ} {ws : List UInt64}

theorem addPolygon_nil (h : st.head = none) (w : UInt64) :
    st.addPolygon w = some { st with
      node := Function.update st.node st.used ⟨w, none⟩
      used := st.used + 1
      head := some st.used
      tail := some st.used } := by
  simp [addPolygon, h]

theorem addPolygon_concat {head tail : ℕ} (h : st.head = some head) (ht : st.tail = some tail)
    (hne : tail ≠ st.used) (w : UInt64) :
    st.addPolygon w = some { st with
      node := Function.update (Function.update st.node st.used ⟨w, none⟩) tail
        ⟨(st.node tail).polygon, some st.used⟩
      used := st.used + 1
      tail := some st.used } := by
  simp [addPolygon, h, ht, hne]

theorem Stored.addPolygon (h : Stored st addrs ws) (w : UInt64) :
    ∃ st', st.addPolygon w = some st' ∧ Stored st' (addrs ++ [st.used]) (ws ++ [w]) ∧
      st'.out = st.out := by
  have hnew : st.used ∉ addrs := fun hmem => Nat.lt_irrefl _ (h.allocated _ hmem)
  have hnodup : (addrs ++ [st.used]).Nodup := by
    rw [List.nodup_append]
    refine ⟨h.nodup, by simp, ?_⟩
    intro a ha b hb
    rw [List.mem_singleton.mp hb]
    exact fun heq => hnew (heq ▸ ha)
  have hallocated : ∀ a ∈ addrs ++ [st.used], a < st.used + 1 := by
    intro a ha
    rcases List.mem_append.mp ha with ha | ha
    · exact Nat.lt_succ_of_lt (h.allocated a ha)
    · rw [List.mem_singleton.mp ha]
      exact Nat.lt_succ_self _
  have hlength : (addrs ++ [st.used]).length = st.used + 1 := by simp [h.length]
  -- the nodes of the list keep their words
  have hwords : ∀ node : ℕ → ListNode, (∀ a ∈ addrs, (node a).polygon = (st.node a).polygon) →
      (node st.used).polygon = w →
      (addrs ++ [st.used]).map (fun a => (node a).polygon) = ws ++ [w] := by
    intro node hold hlast
    rw [List.map_append, List.map_congr_left hold, h.words, List.map_singleton, hlast]
  rcases List.eq_nil_or_concat' addrs with rfl | ⟨l, tail, rfl⟩
  · have hhead : st.head = none := h.chain
    refine ⟨_, addPolygon_nil hhead w, ⟨?_, ?_, rfl, hnodup, hallocated, hlength⟩, rfl⟩
    · simp
    · exact hwords _ (by simp) (by simp)
  · have htail : st.tail = some tail := by simpa using h.tail
    have hne : tail ≠ st.used := by
      rintro rfl
      simp at hnew
    obtain ⟨head, hhead⟩ : ∃ head, st.head = some head := by
      cases hh : st.head with
      | some a => exact ⟨a, rfl⟩
      | none =>
          have hnil := h.chain.eq_nil_iff.mpr hh
          simp at hnil
    refine ⟨_, addPolygon_concat hhead htail hne w,
      ⟨?_, ?_, by simp, hnodup, hallocated, hlength⟩, rfl⟩
    · -- first the new node, then the pointer to it
      have hchain : Chain (fun x => (Function.update st.node st.used ⟨w, none⟩ x).next) st.head
          (l ++ [tail]) := by
        apply h.chain.congr
        intro x hx
        have hxu : x ≠ st.used := fun heq => hnew (heq ▸ hx)
        simp [hxu]
      have hlinked := hchain.concat h.nodup hnew (by simp)
      convert hlinked using 1
      funext x
      by_cases hx : x = tail
      · subst hx
        simp
      · simp [hx]
    · apply hwords
      · intro a ha
        have hau : a ≠ st.used := fun heq => hnew (heq ▸ ha)
        by_cases hat : a = tail
        · subst hat
          simp
        · simp [hat, hau]
      · simp [hne.symm]

/-- The loop of `do_all` visits the list from front to back, and ends. -/
theorem doAllLoop_eq (w : UInt64) {start : Option ℕ} {fuel : ℕ}
    (h : Chain (fun a => (st.node a).next) start addrs) (hfuel : addrs.length ≤ fuel) :
    doAllLoop (getAction w) (getWhomRunOn w) fuel start st =
      some { st with
        out := st.out ++ ((addrs.map fun a => (st.node a).polygon).filter
          (ofKind (runOnField w))).flatMap (selected w) } := by
  induction addrs generalizing start fuel st with
  | nil =>
      obtain rfl : start = none := h
      cases fuel <;> simp [doAllLoop]
  | cons a addrs ih =>
      obtain ⟨rfl, hrest⟩ := h
      obtain ⟨fuel, rfl⟩ : ∃ n, fuel = n + 1 := ⟨fuel - 1, by simp at hfuel; omega⟩
      have hle : addrs.length ≤ fuel := by simpa using hfuel
      rw [doAllLoop, shouldRun_eq, runAction_eq]
      cases hkind : ofKind (runOnField w) (st.node a).polygon with
      | true =>
          rw [if_pos rfl, ih (by exact hrest) hle]
          simp [hkind]
      | false =>
          rw [if_neg (by simp), ih hrest hle]
          simp [hkind]

/-! ## One word -/

/-- What the program holds and has printed after the words. -/
structure After (st : Polygons) (ws : List UInt64) : Prop where
  stored : ∃ addrs, Stored st addrs (polygonsOf ws)
  out : st.out = meaning ws

theorem after_empty : After empty [] := ⟨⟨[], stored_empty⟩, rfl⟩

theorem Stored.out (h : Stored st addrs ws) (out : List Report) :
    Stored { st with out := out } addrs ws :=
  ⟨h.chain, h.words, h.tail, h.nodup, h.allocated, h.length⟩

theorem polygonsOf_concat (ws : List UInt64) (w : UInt64) :
    polygonsOf (ws ++ [w]) = if bit w 1 = true then polygonsOf ws ++ [w] else polygonsOf ws := by
  cases hb : bit w 1 <;> simp [polygonsOf, hb]

theorem After.runOnPolygon (h : After st ws) (w : UInt64) :
    ∃ st', st.runOnPolygon w = some (st', bit w 0) ∧ After st' (ws ++ [w]) := by
  obtain ⟨addrs, hstored⟩ := h.stored
  -- the word is stored before anything runs on the list
  obtain ⟨st₁, addrs₁, hadd, hstored₁, hout⟩ : ∃ st₁ addrs₁,
      (if isNewPolygon w then runFunction ADD_POLYGON st w else some st) = some st₁ ∧
        Stored st₁ addrs₁ (polygonsOf (ws ++ [w])) ∧ st₁.out = st.out := by
    rw [isNewPolygon_eq, polygonsOf_concat]
    cases hb : bit w 1 with
    | true =>
        obtain ⟨st₁, hadd, hst₁, hout⟩ := hstored.addPolygon w
        exact ⟨st₁, _, hadd, hst₁, hout⟩
    | false => exact ⟨st, addrs, rfl, hstored, rfl⟩
  have hrun : (if getWhomRunOn w = THIS_POLYGON then runFunction DO_CURRENT st₁ w
      else runFunction DO_ALL st₁ w) =
        some { st₁ with out := st₁.out ++ reportsOf (ws ++ [w]) w } := by
    by_cases hthis : runOnField w = 0
    · rw [if_pos ((this_polygon_iff w).mpr hthis), reportsOf, if_pos hthis]
      show some (st₁.doCurrent w) = _
      rw [doCurrent, runAction_eq]
    · rw [if_neg fun heq => hthis ((this_polygon_iff w).mp heq), reportsOf, if_neg hthis]
      show st₁.doAll w = _
      rw [doAll, doAllLoop_eq w hstored₁.chain hstored₁.length.le, hstored₁.words]
  refine ⟨{ st₁ with out := st₁.out ++ reportsOf (ws ++ [w]) w }, ?_, ?_⟩
  · simp only [Polygons.runOnPolygon, hadd, Option.bind_some, hrun, Option.map_some,
      isLastIteration_eq]
  · refine ⟨⟨addrs₁, hstored₁.out _⟩, ?_⟩
    show st₁.out ++ reportsOf (ws ++ [w]) w = _
    rw [hout, h.out, meaning_concat]

end Polygons

/-! ## Every input -/

/-- The words in hexadecimal, each on a line of its own. -/
def linesOf (ws : List UInt64) : Text := ws.flatMap fun w => 10 :: hexDigits w.toNat

/-- Every list of words can be given to the program. -/
theorem reads_linesOf (ws : List UInt64) : Reads scanHex16 (linesOf ws) ws := by
  induction ws with
  | nil => trivial
  | cons w ws ih =>
      refine ⟨linesOf ws, ?_, ih⟩
      have hsplit : linesOf (w :: ws) = [10] ++ (hexDigits w.toNat ++ linesOf ws) := by
        simp [linesOf]
      rw [hsplit]
      apply scanHex_hexDigits
      · simp [isspace]
      · exact hexDigits_word_length w
      · cases ws with
        | nil => simp [linesOf]
        | cons v ws =>
            intro c hc
            obtain rfl : c = 10 := by simpa [linesOf] using hc.symm
            rfl

theorem run_after {ws : List UInt64} (honly : OnlyLast ws) {stdin : Text}
    (hreads : Reads scanHex16 stdin ws) (input : UInt64) {k : ℕ} (hk : k ≤ ws.length) :
    ∃ st, run Loop.step (Loop.start stdin input) (List.replicate k ()) = some st ∧
      st.polygons.After (ws.take k) ∧ Reads scanHex16 st.stdin (ws.drop k) ∧
      (st.done = true ↔ k = ws.length) := by
  induction k with
  | zero =>
      refine ⟨_, rfl, Polygons.after_empty, hreads, ?_⟩
      obtain ⟨front, last, rfl, _⟩ := honly
      simp [Loop.start]
  | succ k ih =>
      have hlt : k < ws.length := hk
      obtain ⟨st, hrun, hafter, hrest, hdone⟩ := ih (Nat.le_of_lt hlt)
      have hnot : st.done = false := by
        rw [Bool.eq_false_iff]
        exact fun hd => Nat.ne_of_lt hlt (hdone.mp hd)
      rw [List.drop_eq_getElem_cons hlt] at hrest
      obtain ⟨s', hscan, hrest'⟩ := hrest
      obtain ⟨polygons, hword, hafter'⟩ := hafter.runOnPolygon ws[k]
      have hstep : Loop.step st () = some ⟨s', ws[k], polygons, bit ws[k] 0⟩ := by
        simp [Loop.step, hnot, hscan, hword]
      refine ⟨⟨s', ws[k], polygons, bit ws[k] 0⟩, ?_, ?_, hrest', honly.bit_iff hlt⟩
      · rw [List.replicate_succ']
        exact run_concat hrun hstep
      · rw [← List.take_append_getElem hlt]
        exact hafter'

/-- The passes of the main loop read the words one by one, and the loop ends after the last.
After `k` passes the reports printed are the meaning of the first `k` words, and the list
holds their polygons in order, each at one node, with `tail` the last node. -/
theorem run_meaning (ws : List UInt64) (honly : OnlyLast ws) (stdin : Text)
    (hreads : Reads scanHex16 stdin ws) (input : UInt64) (k : ℕ) (hk : k ≤ ws.length) :
    ∃ st, run Loop.step (Loop.start stdin input) (List.replicate k ()) = some st ∧
      st.polygons.out = meaning (ws.take k) ∧
      (∃ addrs, st.polygons.Stored addrs (polygonsOf (ws.take k))) ∧
      (st.done = true ↔ k = ws.length) := by
  obtain ⟨st, hrun, hafter, _, hdone⟩ := run_after honly hreads input hk
  exact ⟨st, hrun, hafter.out, hafter.stored, hdone⟩

/-- A triangle to print, and a square that ends the input and runs on both. -/
theorem run_meaning_two :
    ∃ st, run Loop.step (Loop.start (linesOf [0x3a, 0xcf]) 0) (List.replicate 2 ()) = some st ∧
      st.polygons.out = meaning [0x3a, 0xcf] ∧
      (∃ addrs, st.polygons.Stored addrs (polygonsOf [0x3a, 0xcf])) ∧
      (st.done = true ↔ 2 = 2) :=
  run_meaning [0x3a, 0xcf] ⟨[0x3a], 0xcf, rfl,
    fun w hw => by rw [List.mem_singleton.mp hw]; decide, by decide⟩ _ (reads_linesOf _) 0 2
    (by decide)

end OsSolutions.Polygon
