import Trellis.Proofs.Markup.Lookahead

/-!
# The rounds of a scan

The scanner takes one thing at a time off the front of the markup: a mark, a text, or the body of the
raw element. `Round` says what one round does to the open elements and which events it emits; a `Run`
is one round after the other.
- `scanFrom_run`: a scan is a run that ends at the end of the markup, where what is open closes, or in
  front of a `<` with which no round can begin (`Stuck`),
- `Run.scan_eq`: and every run is part of the scan,
- `Run.cut`: a run that ends in front of a `<` is also one over the markup up to there.
-/

namespace Trellis.Markup

/-! ## 1. Rounds and runs -/

/-- One round: with `stack` open, the scanner takes something off the front of a text, emits events and
    goes on with other elements open. -/
inductive Round (raw : String) (stack : List String) :
    List Char → List Event → List String → List Char → Prop
  | body {cs body rest} (hraw : stack.head? = some raw) (h : rawBody? raw cs = some (body, rest)) :
      Round raw stack cs (textEvent body ++ (close raw stack).1) (close raw stack).2 rest
  | unended {c cs} (hraw : stack.head? = some raw) (h : rawBody? raw (c :: cs) = none) :
      Round raw stack (c :: cs) (textEvent (c :: cs)) stack []
  | comment {cs rest} (hraw : stack.head? ≠ some raw) (h : mark? cs = some (.comment, rest)) :
      Round raw stack cs [] stack rest
  | endTag {cs tag rest} (hraw : stack.head? ≠ some raw) (h : mark? cs = some (.endTag tag, rest)) :
      Round raw stack cs (close tag stack).1 (close tag stack).2 rest
  | startTag {cs tag attrs selfClosing rest} (hraw : stack.head? ≠ some raw)
      (h : mark? cs = some (.startTag tag attrs selfClosing, rest)) :
      Round raw stack cs [.opening tag attrs selfClosing]
        (if selfClosing then stack else tag :: stack) rest
  | text {c cs} (hraw : stack.head? ≠ some raw) (hc : c ≠ '<') :
      Round raw stack (c :: cs) (textEvent ((c :: cs).takeWhile (· ≠ '<'))) stack
        ((c :: cs).dropWhile (· ≠ '<'))

/-- Rounds one after the other, with all their events. -/
inductive Run (raw : String) : List String → List Char → List Event → List String → List Char → Prop
  | refl (stack cs) : Run raw stack cs [] stack cs
  | step {stack cs es stack' cs' es' stack'' cs''} (h : Round raw stack cs es stack' cs')
      (hmore : Run raw stack' cs' es' stack'' cs'') :
      Run raw stack cs (es ++ es') stack'' cs''

/-- Outside of a raw body, and in front of a `<` with which no comment, end tag or start tag begins. -/
structure Stuck (raw : String) (stack : List String) (cs : List Char) : Prop where
  outside : stack.head? ≠ some raw
  angle : cs.head? = some '<'
  noMark : mark? cs = none

section

variable {raw : String} {stack stack' stack'' : List String} {cs cs' cs'' : List Char}
  {es es' : List Event}

theorem Run.trans (h : Run raw stack cs es stack' cs') (h' : Run raw stack' cs' es' stack'' cs'') :
    Run raw stack cs (es ++ es') stack'' cs'' := by
  induction h with
  | refl => exact h'
  | step hround _ ih =>
    rw [List.append_assoc]
    exact .step hround (ih h')

theorem Run.single (h : Round raw stack cs es stack' cs') : Run raw stack cs es stack' cs' := by
  have := Run.step h (.refl stack' cs')
  rwa [List.append_nil] at this

/-! ## 2. Rounds of the scanner -/

theorem scanFrom_nil (raw : String) (fuel : Nat) (stack : List String) :
    scanFrom raw fuel stack [] = ⟨closeAll stack, none⟩ := by
  cases fuel <;> rfl

/-- A mark that is taken begins with `<`. -/
theorem exists_cons_of_mark? {m : Mark} (h : mark? cs = some (m, cs')) :
    ∃ tok, cs = '<' :: (tok ++ cs') := by
  obtain ⟨tok, rfl, -⟩ := mark?_append h
  exact ⟨tok, rfl⟩

/-- A round takes at least one character off the front. -/
theorem Round.exists_cons (h : Round raw stack cs es stack' cs') :
    ∃ c tok, cs = c :: (tok ++ cs') := by
  cases h with
  | @body _ body _ hraw h =>
    obtain ⟨tok, rfl, -⟩ := rawBody?_append h
    obtain ⟨c, taken, htaken⟩ := List.exists_cons_of_ne_nil
      (show body ++ (tok ++ ['>']) ≠ [] by simp)
    exact ⟨c, taken, by rw [htaken, List.cons_append]⟩
  | unended hraw h => exact ⟨_, _, by rw [List.append_nil]⟩
  | comment hraw h => exact ⟨'<', exists_cons_of_mark? h⟩
  | endTag hraw h => exact ⟨'<', exists_cons_of_mark? h⟩
  | startTag hraw h => exact ⟨'<', exists_cons_of_mark? h⟩
  | @text c ds hraw hc =>
    rw [List.dropWhile_cons_of_pos (by simpa using hc)]
    exact ⟨c, ds.takeWhile (· ≠ '<'), by rw [List.takeWhile_append_dropWhile]⟩

/-- **A round is what the scanner does next.** -/
theorem Round.scanFrom_succ (h : Round raw stack cs es stack' cs') (fuel : Nat) :
    scanFrom raw (fuel + 1) stack cs = (scanFrom raw fuel stack' cs').after es := by
  obtain ⟨c, ds, rfl⟩ : ∃ c ds, cs = c :: ds := by
    obtain ⟨c, tok, hcs⟩ := h.exists_cons
    exact ⟨c, _, hcs⟩
  cases h with
  | body hraw h => rw [scanFrom, if_pos hraw, h]
  | unended hraw h => rw [scanFrom_nil, scanFrom, if_pos hraw, h]; rfl
  | comment hraw h =>
    obtain ⟨_, hangle⟩ := exists_cons_of_mark? h
    rw [scanFrom, if_neg hraw, if_pos (List.cons.inj hangle).1, h]
    rfl
  | endTag hraw h =>
    obtain ⟨_, hangle⟩ := exists_cons_of_mark? h
    rw [scanFrom, if_neg hraw, if_pos (List.cons.inj hangle).1, h]
  | startTag hraw h =>
    obtain ⟨_, hangle⟩ := exists_cons_of_mark? h
    rw [scanFrom, if_neg hraw, if_pos (List.cons.inj hangle).1, h]
  | text hraw hc => rw [scanFrom, if_neg hraw, if_neg hc]

/-- Where something is left, there is a round or the scanner is stuck. -/
theorem round_or_stuck (raw : String) (stack : List String) (c : Char) (cs : List Char) :
    (∃ es stack' cs', Round raw stack (c :: cs) es stack' cs') ∨ Stuck raw stack (c :: cs) := by
  by_cases hraw : stack.head? = some raw
  · cases h : rawBody? raw (c :: cs) with
    | none => exact .inl ⟨_, _, _, .unended hraw h⟩
    | some r => exact .inl ⟨_, _, _, .body hraw h⟩
  by_cases hc : c = '<'
  · subst hc
    cases h : mark? ('<' :: cs) with
    | none => exact .inr ⟨hraw, rfl, h⟩
    | some r =>
      obtain ⟨m, rest⟩ := r
      cases m with
      | comment => exact .inl ⟨_, _, _, .comment hraw h⟩
      | endTag tag => exact .inl ⟨_, _, _, .endTag hraw h⟩
      | startTag tag attrs selfClosing => exact .inl ⟨_, _, _, .startTag hraw h⟩
  · exact .inl ⟨_, _, _, .text hraw hc⟩

theorem Stuck.scanFrom_succ (h : Stuck raw stack cs) (fuel : Nat) :
    scanFrom raw (fuel + 1) stack cs = ⟨[], some cs⟩ := by
  cases cs with
  | nil => cases h.angle
  | cons c cs =>
    have hc : c = '<' := Option.some.inj h.angle
    rw [scanFrom, if_neg h.outside, if_pos hc, h.noMark]

/-! ## 3. Scans -/

theorem Run.reads (h : Run raw stack cs es stack' cs') : Reads raw stack stack' cs cs' es := by
  induction h with
  | refl stack cs => exact .refl raw stack cs
  | step hround _ ih =>
    obtain ⟨c, tok, rfl⟩ := hround.exists_cons
    exact (Reads.of_round (by simp) hround.scanFrom_succ).trans ih

/-- **A scan is a run** to the end of the markup or to where the scanner is stuck; as much fuel as there
    are characters is enough. -/
theorem scanFrom_run {fuel : Nat} (hfuel : cs.length ≤ fuel) :
    ∃ es stack' rest, Run raw stack cs es stack' rest ∧
      (rest = [] ∧ scanFrom raw fuel stack cs = ⟨es ++ closeAll stack', none⟩ ∨
        Stuck raw stack' rest ∧ scanFrom raw fuel stack cs = ⟨es, some rest⟩) := by
  induction fuel generalizing stack cs with
  | zero =>
    obtain rfl := List.length_eq_zero_iff.mp (Nat.le_zero.mp hfuel)
    exact ⟨[], stack, [], .refl stack [], .inl ⟨rfl, scanFrom_nil raw 0 stack⟩⟩
  | succ fuel ih =>
    cases cs with
    | nil => exact ⟨[], stack, [], .refl stack [], .inl ⟨rfl, scanFrom_nil raw _ stack⟩⟩
    | cons c cs =>
      rcases round_or_stuck raw stack c cs with ⟨es₀, stack₀, cs₀, hround⟩ | hstuck
      · obtain ⟨_, tok, hcons⟩ := hround.exists_cons
        cases hcons
        have hfuel₀ : cs₀.length ≤ fuel := by simp at hfuel; omega
        obtain ⟨es, stack', rest, hrun, hend⟩ := @ih stack₀ cs₀ hfuel₀
        refine ⟨es₀ ++ es, stack', rest, .step hround hrun, ?_⟩
        rw [hround.scanFrom_succ]
        rcases hend with ⟨hrest, hscan⟩ | ⟨hstuck, hscan⟩
        · exact .inl ⟨hrest, by rw [hscan, Scan.after, List.append_assoc]⟩
        · exact .inr ⟨hstuck, by rw [hscan, Scan.after]⟩
      · exact ⟨[], stack, c :: cs, .refl stack _, .inr ⟨hstuck, hstuck.scanFrom_succ fuel⟩⟩

/-- More fuel than characters changes nothing. -/
theorem scanFrom_fuel {fuel : Nat} (hfuel : cs.length ≤ fuel) :
    scanFrom raw fuel stack cs = scanFrom raw cs.length stack cs := by
  induction hn : cs.length using Nat.strong_induction_on generalizing cs stack fuel with
  | _ n ih =>
    subst hn
    cases cs with
    | nil => rw [scanFrom_nil, scanFrom_nil]
    | cons c cs =>
      obtain ⟨fuel, rfl⟩ : ∃ k, fuel = k + 1 := ⟨fuel - 1, by simp at hfuel; omega⟩
      rw [List.length_cons]
      rcases round_or_stuck raw stack c cs with ⟨es₀, stack₀, cs₀, hround⟩ | hstuck
      · obtain ⟨_, tok, hcons⟩ := hround.exists_cons
        cases hcons
        have hlt : cs₀.length < (c :: (tok ++ cs₀)).length := by
          rw [List.length_cons, List.length_append]
          omega
        have hfuel₀ : cs₀.length ≤ fuel := by simp at hfuel; omega
        have hlength : cs₀.length ≤ (tok ++ cs₀).length := by simp
        rw [hround.scanFrom_succ, hround.scanFrom_succ, ih _ hlt hlength rfl, ih _ hlt hfuel₀ rfl]
      · rw [hstuck.scanFrom_succ, hstuck.scanFrom_succ]

/-- **Every run from the beginning of the markup is part of the scan**, which goes on where the run
    ends. -/
theorem Run.scan_eq {markup : String} (h : Run (Text.lower raw) [] markup.toList es stack cs) :
    scan markup raw = (scanFrom (Text.lower raw) cs.length stack cs).after es := by
  obtain ⟨fuel, hfuel, hscan⟩ := h.reads markup.toList.length (Nat.le_refl _)
  rw [scan, hscan, scanFrom_fuel hfuel]

/-! ## 4. Runs up to a mark -/

/-- A text without `<` in front of nothing or of a `<` is taken in one round. -/
theorem Round.text_append {text rest : List Char} (hraw : stack.head? ≠ some raw) (hne : text ≠ [])
    (htext : ∀ c ∈ text, c ≠ '<') (hrest : Text.Stops (· ≠ '<') rest) :
    Round raw stack (text ++ rest) (textEvent text) stack rest := by
  have hall : ∀ c ∈ text, decide (c ≠ '<') = true := fun c hc => decide_eq_true (htext c hc)
  have htake := Text.takeWhile_run hall hrest
  have hdrop := Text.dropWhile_run hall hrest
  obtain ⟨c, text, rfl⟩ := List.exists_cons_of_ne_nil hne
  have hround := @Round.text raw stack c (text ++ rest) hraw (htext c List.mem_cons_self)
  rw [List.cons_append] at htake hdrop ⊢
  rwa [htake, hdrop] at hround

/-- A round is the same when the text is cut off in front of a `<` behind what it takes. -/
theorem Round.cut {tail rest : List Char} (h : Round raw stack cs es stack' (tail ++ rest))
    (hangle : rest.head? = some '<') :
    ∃ tok, cs = tok ++ tail ++ rest ∧ Round raw stack (tok ++ tail) es stack' tail := by
  generalize hbehind : tail ++ rest = behind at h
  cases h with
  | @body _ body _ hraw h =>
    obtain ⟨tok, rfl, hmore⟩ := rawBody?_append h
    exact ⟨body ++ (tok ++ ['>']), by rw [← hbehind]; simp, .body hraw (hmore tail)⟩
  | unended hraw h =>
    obtain ⟨-, rfl⟩ := List.append_eq_nil_iff.mp hbehind
    cases hangle
  | comment hraw h =>
    obtain ⟨tok, rfl, hmore⟩ := mark?_append h
    exact ⟨'<' :: tok, by rw [← hbehind]; simp, .comment hraw (hmore tail)⟩
  | endTag hraw h =>
    obtain ⟨tok, rfl, hmore⟩ := mark?_append h
    exact ⟨'<' :: tok, by rw [← hbehind]; simp, .endTag hraw (hmore tail)⟩
  | startTag hraw h =>
    obtain ⟨tok, rfl, hmore⟩ := mark?_append h
    exact ⟨'<' :: tok, by rw [← hbehind]; simp, .startTag hraw (hmore tail)⟩
  | @text c cs hraw hc =>
    have hsplit : c :: cs = (c :: cs).takeWhile (· ≠ '<') ++ (tail ++ rest) := by
      rw [hbehind]
      exact List.takeWhile_append_dropWhile.symm
    have hstops : Text.Stops (· ≠ '<') tail := by
      have hbehind' : Text.Stops (· ≠ '<') (tail ++ rest) := hbehind ▸ Text.stops_dropWhile _ _
      cases tail with
      | nil => exact Text.stops_nil
      | cons d tail => exact hbehind'
    refine ⟨(c :: cs).takeWhile (· ≠ '<'), by rw [List.append_assoc]; exact hsplit,
      .text_append hraw ?_ (fun d hd => ?_) hstops⟩
    · rw [List.takeWhile_cons_of_pos (by simpa using hc)]
      nofun
    · simpa using List.mem_takeWhile_imp hd

/-- **A run that ends in front of a `<` does not look at it**: the text before it is taken by the same
    rounds, with the same events. -/
theorem Run.cut (h : Run raw stack cs es stack' cs') (hangle : cs'.head? = some '<') :
    ∃ front, cs = front ++ cs' ∧ Run raw stack front es stack' [] := by
  induction h with
  | refl stack cs => exact ⟨[], rfl, .refl stack []⟩
  | step hround _ ih =>
    obtain ⟨tail, rfl, hrun⟩ := ih hangle
    obtain ⟨tok, rfl, hround'⟩ := hround.cut hangle
    exact ⟨tok ++ tail, rfl, .step hround' hrun⟩

end

end Trellis.Markup
