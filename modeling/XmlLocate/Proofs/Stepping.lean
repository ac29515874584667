import XmlLocate.Proofs.Lines
import XmlLocate.Scan.Stepwise

/-!
# Scans resumed at any character

A carriage return and the line feed behind it are read in one step, so between the two the automaton
of `Scan/Stepwise` has no state. `resume m u t` is the scan that goes on with `t` when `u` was read since
the state `m`; it lets a carriage return at the end of `u` wait for its line feed. With it inductions
on a text can go character by character.

* `resume_inert`: a character that changes nothing but the lines joins what was read.
* `resume_splitAround`: a mode that waits for a delimiter gets to the first one.
-/

namespace XmlLocate

instance (a b : List Char) : Decidable (SplitsPair a b) :=
  inferInstanceAs (Decidable (_ ∧ _))

/-- The character ends a line. -/
def IsTerminator (c : Char) : Prop := c = '\n' ∨ c = '\r'

instance (c : Char) : Decidable (IsTerminator c) := inferInstanceAs (Decidable (_ ∨ _))

theorem not_splitsPair_of_not_isTerminator {c : Char} (hc : ¬ IsTerminator c) (a b : List Char) :
    ¬ SplitsPair a (c :: b) ∧ ¬ SplitsPair (a ++ [c]) b :=
  ⟨not_splitsPair_of_cons (fun h => hc (.inl h)) a b,
    not_splitsPair_of_concat (fun h => hc (.inr h)) a b⟩

namespace Machine

variable {m : Machine}

/-! ## Steps -/

theorem run_nil (m : Machine) : m.run [] = m.finish := by
  rw [run]

theorem run_cons (m : Machine) (c : Char) (t : List Char) :
    m.run (c :: t) = m.step (c :: t) >>= fun p => p.1.run p.2 := by
  rw [run]
  split
  · rename_i e h
    rw [h]
    rfl
  · rename_i m' rest h
    exact (congrArg (· >>= fun p => p.1.run p.2) h).symm

theorem step_pair (m : Machine) (t : List Char) :
    m.step ('\r' :: '\n' :: t) = .ok (m.pass ['\r', '\n'], t) := rfl

theorem step_eq {c : Char} {t : List Char} (h : ¬ SplitsPair [c] t) (m : Machine) :
    m.step (c :: t) = if IsTerminator c then .ok (m.pass [c], t) else m.stepChar c t := by
  have hpair : ∀ u, c = '\r' → t = '\n' :: u → False := by
    rintro u rfl rfl
    exact h ⟨rfl, rfl⟩
  exact step.eq_3 m c t hpair

@[simp] theorem pass_nil (m : Machine) : m.pass [] = m := by
  rw [pass, LineTable.extend_nil]

theorem pass_pass {u v : List Char} (h : ¬ SplitsPair u v) (m : Machine) :
    (m.pass u).pass v = m.pass (u ++ v) := by
  show { m with lines := (m.lines.extend u).extend v } = m.pass (u ++ v)
  rw [LineTable.extend_extend h]
  rfl

/-! ## The rest of a scan -/

/-- The scan of the rest `t` of a text, of which `u` was read since the state `m`. -/
def resume (m : Machine) (u t : List Char) : Except ScanError Scan :=
  if SplitsPair u t then (m.pass (u ++ ['\n'])).run t.tail else (m.pass u).run t

theorem resume_of_not_splitsPair {u t : List Char} (h : ¬ SplitsPair u t) :
    m.resume u t = (m.pass u).run t := if_neg h

@[simp] theorem resume_nil_left (m : Machine) (t : List Char) : m.resume [] t = m.run t := by
  rw [resume_of_not_splitsPair (not_splitsPair_nil_left t), pass_nil]

@[simp] theorem resume_nil_right (m : Machine) (u : List Char) :
    m.resume u [] = (m.pass u).finish := by
  have h : ¬ SplitsPair u [] := by
    intro h
    simpa using h.2
  rw [resume_of_not_splitsPair h, run_nil]

theorem resume_cons {c : Char} (hc : ¬ IsTerminator c) (u t : List Char) :
    m.resume u (c :: t) = (m.pass u).stepChar c t >>= fun p => p.1.run p.2 := by
  have hsplit : ¬ SplitsPair [c] t := (not_splitsPair_of_not_isTerminator hc [] t).2
  rw [resume_of_not_splitsPair (not_splitsPair_of_not_isTerminator hc u t).1, run_cons,
    step_eq hsplit, if_neg hc]

/-- A text that is passed behind `u` is part of what was read. -/
theorem run_pass {u v t : List Char} (hu : ¬ SplitsPair u v) (hv : ¬ SplitsPair (u ++ v) t) :
    ((m.pass u).pass v).run t = m.resume (u ++ v) t := by
  rw [pass_pass hu, resume_of_not_splitsPair hv]

/-- A character that is passed on the way to another state joins what was read. -/
theorem resume_move {m' : Machine} {c : Char} {u t : List Char} (hc : ¬ IsTerminator c)
    (h : (m.pass u).stepChar c t = .ok ((m'.pass u).pass [c], t)) :
    m.resume u (c :: t) = m'.resume (u ++ [c]) t := by
  rw [resume_cons hc, h]
  exact run_pass (not_splitsPair_of_not_isTerminator hc u []).1
    (not_splitsPair_of_not_isTerminator hc u t).2

/-- With `t` behind it, the character changes nothing but the lines. -/
def Inert (m : Machine) (c : Char) (t : List Char) : Prop :=
  IsTerminator c ∨ ∀ u, (m.pass u).stepChar c t = .ok ((m.pass u).pass [c], t)

theorem resume_terminator {c : Char} (hc : IsTerminator c) (u t : List Char) :
    m.resume u (c :: t) = m.resume (u ++ [c]) t := by
  by_cases hu : SplitsPair u (c :: t)
  · -- The line feed of a pair, whose carriage return is the last of `u`.
    obtain rfl : c = '\n' := by simpa using hu.2
    have hafter : ¬ SplitsPair (u ++ ['\n']) t := not_splitsPair_of_concat (by decide) u t
    rw [resume, if_pos hu, resume_of_not_splitsPair hafter]
    rfl
  · rw [resume_of_not_splitsPair hu, run_cons]
    by_cases hc' : SplitsPair [c] t
    · -- The carriage return of a pair, whose line feed comes next.
      obtain rfl : c = '\r' := by simpa using hc'.1
      obtain ⟨d, t, rfl⟩ := List.exists_cons_of_ne_nil (l := t) (by rintro rfl; simpa using hc'.2)
      obtain rfl : d = '\n' := by simpa using hc'.2
      have hpair : SplitsPair (u ++ ['\r']) ('\n' :: t) := ⟨by simp, rfl⟩
      have hu' : ¬ SplitsPair u ['\r', '\n'] := not_splitsPair_of_cons (by decide) u _
      rw [step_pair, resume, if_pos hpair]
      show ((m.pass u).pass ['\r', '\n']).run t = _
      rw [pass_pass hu', List.append_assoc]
      rfl
    · have hu' : ¬ SplitsPair u [c] := fun h => hu ⟨h.1, by simpa using h.2⟩
      have hafter : ¬ SplitsPair (u ++ [c]) t := fun h => hc' ⟨by simpa using h.1, h.2⟩
      rw [step_eq hc', if_pos hc]
      exact run_pass hu' hafter

theorem resume_inert {c : Char} {t : List Char} (h : m.Inert c t) (u : List Char) :
    m.resume u (c :: t) = m.resume (u ++ [c]) t := by
  by_cases hc : IsTerminator c
  · exact resume_terminator hc u t
  · exact resume_move hc ((h.resolve_left hc) u)

theorem resume_append_inert {v : List Char} (h : ∀ c ∈ v, ∀ t, m.Inert c t) (u t : List Char) :
    m.resume u (v ++ t) = m.resume (u ++ v) t := by
  induction v generalizing u with
  | nil => rw [List.nil_append, List.append_nil]
  | cons c v ih =>
    rw [List.cons_append, resume_inert (h c List.mem_cons_self _),
      ih fun d hd => h d (List.mem_cons_of_mem _ hd), List.append_assoc, List.singleton_append]

/-! ## To a delimiter -/

/-- The machine passes all characters up to a mark, and goes on with `f` there. -/
def WaitsFor (m : Machine) (mark : List Char) (f : Machine → Except ScanError Machine) : Prop :=
  ∀ u c t, (m.pass u).stepChar c t =
    if mark <+: c :: t then (·, (c :: t).drop mark.length) <$> f (m.pass u)
    else .ok ((m.pass u).pass [c], t)

theorem WaitsFor.inert {mark : List Char} {f : Machine → Except ScanError Machine}
    (h : m.WaitsFor mark f) {c : Char} {t : List Char} (hp : ¬ mark <+: c :: t) : m.Inert c t := by
  refine .inr fun u => ?_
  rw [h, if_neg hp]

theorem inert_content (hm : m.mode = .content) {c : Char} (hc : c ≠ '<') (t : List Char) :
    m.Inert c t := by
  refine .inr fun u => ?_
  have hm' : (m.pass u).mode = .content := hm
  simp only [stepChar, hm', if_neg hc]

/-- **A machine that waits for a mark gets to the first one.** -/
theorem resume_splitAround {mark : List Char} {f : Machine → Except ScanError Machine}
    (h : m.WaitsFor mark f) (hmark : ∀ c t, mark <+: c :: t → ¬ IsTerminator c) (u t : List Char) :
    m.resume u t =
      match splitAround mark t with
      | some (a, b) => f (m.pass (u ++ a)) >>= fun m' => m'.run b
      | none => (m.pass (u ++ t)).finish := by
  induction t generalizing u with
  | nil => simp [splitAround]
  | cons c t ih =>
    rw [splitAround]
    by_cases hp : mark <+: c :: t
    · rw [if_pos (List.isPrefixOf_iff_prefix.mpr hp), resume_cons (hmark c t hp), h, if_pos hp]
      dsimp only
      rw [List.append_nil]
      cases f (m.pass u) <;> rfl
    · rw [if_neg (by rwa [List.isPrefixOf_iff_prefix]), resume_inert (h.inert hp), ih]
      cases splitAround mark t <;> simp

theorem singleton_prefix_iff {q c : Char} {t : List Char} : [q] <+: c :: t ↔ c = q := by
  rw [List.cons_prefix_cons]
  exact ⟨fun h => h.1.symm, fun h => ⟨h.symm, List.nil_prefix⟩⟩

theorem waitsFor_closeTag (hm : m.mode = .closeTag) : m.WaitsFor ['>'] endCloseTag := by
  intro u c t
  have hm' : (m.pass u).mode = .closeTag := hm
  simp only [stepChar, hm', singleton_prefix_iff]
  rfl

theorem waitsFor_quoted {q : Char} (hm : m.mode = .quoted q) :
    m.WaitsFor [q] fun m' => .ok ({ m' with mode := .head }.pass [q]) := by
  intro u c t
  have hm' : (m.pass u).mode = .quoted q := hm
  simp only [stepChar, hm', singleton_prefix_iff]
  by_cases hc : c = q
  · rw [if_pos hc, if_pos hc, hc]
    rfl
  · rw [if_neg hc, if_neg hc]

/-- The constructs that end at a delimiter, and the modes in which they are read. -/
def bodyMode? : Opening → Option Mode
  | .comment => some .comment
  | .cdata => some .cdata
  | .instruction => some .instruction
  | .closeTag | .declaration | .startTag => none

theorem stepChar_body {o : Opening} (hm : bodyMode? o = some m.mode) (c : Char) (t : List Char) :
    m.stepChar c t = .ok (m.stepTo o c t) := by
  cases o <;> simp only [bodyMode?, Option.some.injEq, reduceCtorEq] at hm <;>
    simp only [stepChar, ← hm]

theorem waitsFor_body {o : Opening} (hm : bodyMode? o = some m.mode) :
    m.WaitsFor o.close fun m' => .ok (m'.endSpan o.close) := by
  intro u c t
  have hm' : bodyMode? o = some (m.pass u).mode := hm
  rw [stepChar_body hm', stepTo]
  by_cases hp : o.close <+: c :: t
  · rw [if_pos hp, if_pos hp]
    rfl
  · rw [if_neg hp, if_neg hp]

/-- The modes in which the blocks of a declaration are read. -/
def blockMode? : Opening → Option Mode
  | .comment => some .nestedComment
  | .instruction => some .nestedInstruction
  | .cdata | .closeTag | .declaration | .startTag => none

theorem stepChar_block {o : Opening} (hm : blockMode? o = some m.mode) (c : Char) (t : List Char) :
    m.stepChar c t = .ok (m.stepNested o c t) := by
  cases o <;> simp only [blockMode?, Option.some.injEq, reduceCtorEq] at hm <;>
    simp only [stepChar, ← hm]

theorem waitsFor_block {o : Opening} (hm : blockMode? o = some m.mode) :
    m.WaitsFor o.close fun m' => .ok ({ m' with mode := .head }.pass o.close) := by
  intro u c t
  have hm' : blockMode? o = some (m.pass u).mode := hm
  rw [stepChar_block hm', stepNested]
  by_cases hp : o.close <+: c :: t
  · rw [if_pos hp, if_pos hp]
    rfl
  · rw [if_neg hp, if_neg hp]

theorem not_isTerminator_of_close_prefix {o : Opening} {c : Char} {t : List Char}
    (h : o.close <+: c :: t) : ¬ IsTerminator c := by
  cases o <;> obtain ⟨rfl, -⟩ := List.cons_prefix_cons.mp h <;> decide

theorem not_isTerminator_of_isQuote {c : Char} (h : isQuote c) : ¬ IsTerminator c := by
  rintro (rfl | rfl) <;> exact absurd h (by decide)

end Machine

end XmlLocate
