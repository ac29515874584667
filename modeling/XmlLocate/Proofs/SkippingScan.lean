import XmlLocate.Proofs.StepwiseScan
import XmlLocate.Scan.Skipping

/-!
# Scans that skip and scans that step

**Theorem (`scanSkipping_eq`).** A scan that skips and a scan of single characters give the same spans and
lines, or the same failure at the same place.

A jump is a run of steps of the automaton: what `skipInert` goes past is inert (`inert_of_isInert`), and
what `skipBlock` goes past is a block that the automaton reads to its end (`resume_block`). If the block
has no end, the one automaton stops in it and the other in the declaration around it, which is the same
failure (`finish_of_inHead`).
-/

namespace XmlLocate

namespace Machine

variable {m : Machine}

/-! ## Jumps -/

theorem inert_of_isInert {stop c : Char} (hm : m.mode.stop? = some stop) (hc : isInert stop c)
    (t : List Char) : m.Inert c t := by
  have hne : c ≠ stop := by
    rintro rfl
    simp [isInert] at hc
  -- The stop of a mode is the first character of what it waits for.
  have hfirst : ∀ r, ¬ stop :: r <+: c :: t := fun r hp => hne (List.cons_prefix_cons.mp hp).1.symm
  cases hmode : m.mode with
  | closeTag | head | nestedComment | nestedInstruction => simp [hmode, Mode.stop?] at hm
  | content =>
    obtain rfl : '<' = stop := by simpa [hmode, Mode.stop?] using hm
    exact inert_content hmode hne t
  | quoted q =>
    obtain rfl : q = stop := by simpa [hmode, Mode.stop?] using hm
    exact (waitsFor_quoted hmode).inert (hfirst [])
  | comment =>
    obtain rfl : '-' = stop := by simpa [hmode, Mode.stop?] using hm
    have hbody : bodyMode? .comment = some m.mode := by rw [hmode]; rfl
    exact (waitsFor_body hbody).inert (hfirst ['-', '>'])
  | cdata =>
    obtain rfl : ']' = stop := by simpa [hmode, Mode.stop?] using hm
    have hbody : bodyMode? .cdata = some m.mode := by rw [hmode]; rfl
    exact (waitsFor_body hbody).inert (hfirst [']', '>'])
  | instruction =>
    obtain rfl : '?' = stop := by simpa [hmode, Mode.stop?] using hm
    have hbody : bodyMode? .instruction = some m.mode := by rw [hmode]; rfl
    exact (waitsFor_body hbody).inert (hfirst ['>'])

theorem run_skipInert (m : Machine) (t : List Char) :
    (m.skipInert t).1.run (m.skipInert t).2 = m.run t := by
  unfold skipInert
  cases hm : m.mode.stop? with
  | none => rfl
  | some stop =>
    dsimp only
    have hall : ∀ c ∈ t.takeWhile (isInert stop), ∀ t, m.Inert c t := by
      intro c hc
      exact inert_of_isInert hm (List.mem_takeWhile_imp hc)
    have hsplit : ¬ SplitsPair (t.takeWhile (isInert stop)) (t.dropWhile (isInert stop)) := by
      intro h
      have := List.mem_takeWhile_imp (List.mem_of_getLast? h.1)
      simp [isInert] at this
    have hrun : m.run t = m.resume [] (t.takeWhile (isInert stop) ++ t.dropWhile (isInert stop)) := by
      rw [List.takeWhile_append_dropWhile, resume_nil_left]
    rw [hrun, resume_append_inert hall, List.nil_append, resume_of_not_splitsPair hsplit]

theorem block?_eq_some {o : Opening} {t : List Char} (h : m.block? t = some o) :
    m.mode = .head ∧ 0 < m.depth ∧ (∃ x, blockMode? o = some x) ∧ ∃ u, o.mark ++ u = t := by
  unfold block? at h
  split_ifs at h with hm hcomment hinstruction
  · obtain rfl := Option.some.inj h
    exact ⟨hm.1, hm.2, ⟨_, rfl⟩, hcomment⟩
  · obtain rfl := Option.some.inj h
    exact ⟨hm.1, hm.2, ⟨_, rfl⟩, hinstruction⟩

theorem run_skipBlock {o : Opening} {t : List Char} (h : m.block? t = some o) :
    (m.skipBlock o t).1.run (m.skipBlock o t).2 = m.run t := by
  obtain ⟨hm, hdepth, ⟨x, hx⟩, t, rfl⟩ := block?_eq_some h
  rw [← resume_nil_left m, resume_block hm hdepth hx, skipBlock, List.drop_left]
  cases splitAround o.close t with
  | some p =>
    dsimp only
    rw [List.nil_append, resume_of_not_splitsPair (not_splitsPair_close o _ _)]
  | none =>
    dsimp only
    rw [run_nil, List.nil_append]
    have hhead : ({ m with mode := x }.pass (o.mark ++ t)).finish =
        ({ m with mode := .head }.pass (o.mark ++ t)).finish :=
      finish_of_inHead (inHead_of_blockMode? hx)
    rw [hhead, with_mode hm]

/-- A step that may skip does what steps do. -/
theorem stepSkipping_bind (m : Machine) (c : Char) (t : List Char) :
    (m.stepSkipping (c :: t) >>= fun p => p.1.run p.2) = m.run (c :: t) := by
  unfold stepSkipping
  cases h : m.block? (c :: t) with
  | some o => exact run_skipBlock h
  | none => exact (run_cons m c t).symm

theorem runSkipping_eq (m : Machine) (t : List Char) : m.runSkipping t = m.run t := by
  fun_induction runSkipping m t with
  | case1 m t m₁ hs =>
    rw [← run_skipInert, hs, run_nil]
  | case2 m t m₁ c u hs e h =>
    rw [← run_skipInert, hs, ← stepSkipping_bind, h]
    rfl
  | case3 m t m₁ c u hs m₂ rest h _ ih =>
    rw [ih, ← run_skipInert m t, hs, ← stepSkipping_bind, h]
    rfl

end Machine

/-- **A scan that skips is a scan that steps,** on every text. -/
theorem scanSkipping_eq (source : List Char) : scanSkipping source = scanStepwise source :=
  Machine.empty.runSkipping_eq source

/-- A jump over a block counts the pair of terminators in it once. -/
example : scanSkipping "<![<!--\r\n-->]></a>".toList = .error ⟨.unmatchedCloseTag, 14, 2, 6⟩ := by
  cbv

end XmlLocate
