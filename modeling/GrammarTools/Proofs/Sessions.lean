import GrammarTools.Command
import GrammarTools.Main

/-!
# What sessions say

A session *says* what it prints and reports, and then ends with a result or with a
failure; neither depends on what has been said before (`Session.Says`). Of two sessions
in a row the second one is heard only if the first one has a result
(`Session.Says.bind`), so of sessions for some items, one after the other, those up to
the first that fails are heard (`Session.says_mapM_upTo`).
-/

namespace GrammarTools

/-! ## Transcripts -/

namespace Transcript

/-- Nothing printed and nothing reported. -/
def empty : Transcript := ⟨[], []⟩

instance : Append Transcript := ⟨fun a b => ⟨a.output ++ b.output, a.reports ++ b.reports⟩⟩

/-- Transcripts one after the other. -/
def join (transcripts : List Transcript) : Transcript :=
  ⟨transcripts.flatMap output, transcripts.flatMap reports⟩

variable (a b c : Transcript)

@[simp]
theorem reports_append : (a ++ b).reports = a.reports ++ b.reports := rfl

@[simp]
theorem append_empty : a ++ empty = a := by
  cases a
  exact congr (congrArg mk (List.append_nil _)) (List.append_nil _)

@[simp]
theorem empty_append : empty ++ a = a := rfl

theorem append_assoc : a ++ b ++ c = a ++ (b ++ c) := by
  change mk (a.output ++ b.output ++ c.output) (a.reports ++ b.reports ++ c.reports) = _
  rw [List.append_assoc, List.append_assoc]
  rfl

@[simp]
theorem join_cons (rest : List Transcript) : join (a :: rest) = a ++ join rest := rfl

end Transcript

/-! ## Outcomes -/

namespace Outcome

/-- All that has been printed, as one text. -/
def stdout (o : Outcome) : String := String.join (o.transcript.output.map Main.render)

/-- The outcome when all has been said, with a result or a failure. -/
def ofResult (said : Transcript) : Except Failure Unit → Outcome
  | .ok _ => ⟨said, none, 0⟩
  | .error failure => ⟨said, some failure, 1⟩

variable (said : Transcript) (result : Except Failure Unit)

@[simp]
theorem transcript_ofResult : (ofResult said result).transcript = said := by cases result <;> rfl

/-- A command ends with a zero or a one. -/
theorem exitCode_ofResult :
    (ofResult said result).exitCode = 0 ∨ (ofResult said result).exitCode = 1 := by
  cases result
  · exact .inr rfl
  · exact .inl rfl

/-- It ends with a zero exactly if nothing failed. -/
theorem exitCode_ofResult_eq_zero_iff :
    (ofResult said result).exitCode = 0 ↔ result = .ok () := by
  cases result
  · exact iff_of_false (Nat.one_ne_zero) nofun
  · exact iff_of_true rfl rfl

end Outcome

/-! ## Sessions -/

/-- What a session prints and reports, and how it ends, whatever has been said before. -/
def Session.Says {α : Type} (s : Session α) (more : Transcript) (result : Except Failure α) :
    Prop :=
  ∀ t, s.run.run t = (result, t ++ more)

namespace Session

variable {α β φ : Type} {s : Session α} {f : α → Session β} {more more' : Transcript}
  {a : α} {failure : Failure} {result : Except Failure β}

theorem says_pure (a : α) : Says (pure a) .empty (.ok a) := fun t => by
  rw [Transcript.append_empty]
  rfl

theorem says_throw (failure : Failure) : Says (throw failure : Session α) .empty (.error failure) :=
  fun t => by
    rw [Transcript.append_empty]
    rfl

theorem says_lift (x : Except Failure α) : Says (liftM x) .empty x := fun t => by
  rw [Transcript.append_empty]
  rfl

theorem says_print (o : Output) : Says (print o) ⟨[o], []⟩ (.ok ()) := fun t => by
  change (_, Transcript.mk (t.output ++ [o]) t.reports) = (_, ⟨t.output ++ [o], t.reports ++ []⟩)
  rw [List.append_nil]

theorem says_report (r : Report) : Says (report r) ⟨[], [r]⟩ (.ok ()) := fun t => by
  change (_, Transcript.mk t.output (t.reports ++ [r])) = (_, ⟨t.output ++ [], t.reports ++ [r]⟩)
  rw [List.append_nil]

/-- A session is heard behind one that has a result. -/
theorem Says.bind (h : Says s more (.ok a)) (h' : Says (f a) more' result) :
    Says (s >>= f) (more ++ more') result := fun t => by
  rw [ExceptT.run_bind, StateT.run_bind, h t, ← Transcript.append_assoc]
  exact h' (t ++ more)

/-- No session is heard behind one that has failed. -/
theorem Says.bind_error (h : Says s more (.error failure)) (f : α → Session β) :
    Says (s >>= f) more (.error failure) := fun t => by
  rw [ExceptT.run_bind, StateT.run_bind, h t]
  rfl

/-- A result that is at hand is used without anything being said. -/
theorem says_lift_bind {x : Except Failure α} (hx : x = .ok a) (h : Says (f a) more result) :
    Says (liftM x >>= f) more result := by
  rw [← Transcript.empty_append more]
  exact Says.bind (hx ▸ says_lift x) h

/-- A failure ends the session, whatever would follow. -/
theorem says_lift_bind_error {x : Except Failure α} (hx : x = .error failure)
    (f : α → Session β) : Says (liftM x >>= f) .empty (.error failure) :=
  Says.bind_error (hx ▸ says_lift x) f

variable {k : Unit → Session β} {output : List Output} {reports : List Report}

/-- What is printed comes before all that is said later. -/
theorem says_print_bind (o : Output) (h : Says (k ()) ⟨output, reports⟩ result) :
    Says (print o >>= k) ⟨o :: output, reports⟩ result :=
  (says_print o).bind h

theorem says_report_bind (r : Report) (h : Says (k ()) ⟨output, reports⟩ result) :
    Says (report r >>= k) ⟨output, r :: reports⟩ result :=
  (says_report r).bind h

/-- Pieces are printed in the order of their items. -/
theorem says_forM_bind (piece : φ → Output) {items : List φ}
    (h : Says (k ()) ⟨output, reports⟩ result) :
    Says ((items.forM fun item => print (piece item)) >>= k) ⟨items.map piece ++ output, reports⟩
      result := by
  have hitems : Says (items.forM fun item => print (piece item)) ⟨items.map piece, []⟩
      (.ok ()) := by
    induction items with
    | nil => exact says_pure ()
    | cons item rest ih => exact says_print_bind (piece item) ih
  exact hitems.bind h

/-! ## Sessions one after the other -/

variable {items : List β} {found : List φ} {key : φ → β} {said : φ → Transcript}
  {results : φ → α} {step : β → Session α}

/-- Steps in a row say one after the other what each of them says. -/
theorem says_mapM (h : ∀ x ∈ found, Says (step (key x)) (said x) (.ok (results x))) :
    Says ((found.map key).mapM step) (.join (found.map said)) (.ok (found.map results)) := by
  induction found with
  | nil => exact says_pure []
  | cons x rest ih =>
    obtain ⟨hx, hrest⟩ := List.forall_mem_cons.1 h
    rw [List.map_cons, List.mapM_cons, List.map_cons, Transcript.join_cons]
    refine hx.bind ?_
    -- The results are put together behind the rest, which says nothing more.
    rw [← Transcript.append_empty (.join _)]
    exact (ih hrest).bind (says_pure _)

/-- The first step that fails ends the row; what the steps before it said has been said. -/
theorem says_mapM_error {y : β} (h : ∀ x ∈ found, Says (step (key x)) (said x) (.ok (results x)))
    (hy : Says (step y) .empty (.error failure)) (behind : List β) :
    Says ((found.map key ++ y :: behind).mapM step) (.join (found.map said)) (.error failure) := by
  induction found with
  | nil =>
    rw [List.map_nil, List.nil_append, List.mapM_cons]
    exact hy.bind_error _
  | cons x rest ih =>
    obtain ⟨hx, hrest⟩ := List.forall_mem_cons.1 h
    rw [List.map_cons, List.cons_append, List.mapM_cons, List.map_cons, Transcript.join_cons]
    exact hx.bind ((ih hrest).bind_error _)

variable {p : β → Bool}

/-- The items up to the first without a property, each with something found for it. -/
theorem exists_map_eq_take {good : φ → Prop}
    (h : ∀ y ∈ items, p y = true → ∃ x, key x = y ∧ good x) :
    ∃ found : List φ, found.map key = items.take (items.findIdx (!p ·)) ∧ ∀ x ∈ found, good x := by
  induction items with
  | nil => exact ⟨[], rfl, by simp⟩
  | cons y rest ih =>
    obtain ⟨hy, hrest⟩ := List.forall_mem_cons.1 h
    cases hp : p y with
    | false => exact ⟨[], by simp [List.findIdx_cons, hp], by simp⟩
    | true =>
      obtain ⟨x, hx, hgood⟩ := hy hp
      obtain ⟨found, hfound, hall⟩ := ih hrest
      exact ⟨x :: found, by simp [List.findIdx_cons, hp, hx, hfound],
        List.forall_mem_cons.2 ⟨hgood, hall⟩⟩

/-- Sessions for some items, one after the other, are heard up to the first one that fails. -/
theorem says_mapM_upTo (hfound : found.map key = items.take (items.findIdx (!p ·)))
    (h : ∀ x ∈ found, Says (step (key x)) (said x) (.ok (results x)))
    (hstop : ∀ y ∈ items, p y = false → ∃ failure, Says (step y) .empty (.error failure)) :
    (items.findIdx (!p ·) = items.length →
      Says (items.mapM step) (.join (found.map said)) (.ok (found.map results))) ∧
    (items.findIdx (!p ·) ≠ items.length →
      ∃ failure, Says (items.mapM step) (.join (found.map said)) (.error failure)) := by
  constructor
  · intro hall
    rw [hall, List.take_length] at hfound
    rw [← hfound]
    exact says_mapM h
  · intro hsome
    have hk : items.findIdx (!p ·) < items.length :=
      Nat.lt_of_le_of_ne List.findIdx_le_length hsome
    have hp : p items[items.findIdx (!p ·)] = false := by
      simpa using List.findIdx_getElem (w := hk)
    obtain ⟨failure, hfailure⟩ := hstop _ (List.getElem_mem hk) hp
    refine ⟨failure, ?_⟩
    -- The items are those found, the one that fails, and some that are not reached.
    have hitems : found.map key ++ items[items.findIdx (!p ·)] ::
        items.drop (items.findIdx (!p ·) + 1) = items := by
      rw [hfound, ← List.drop_eq_getElem_cons hk, List.take_append_drop]
    rw [← hitems]
    exact says_mapM_error h hfailure _

/-- What a session says and ends with is the outcome of its run. -/
theorem outcome_of_says {s : Session Unit} {result : Except Failure Unit}
    (h : Says s more result) : s.outcome = .ofResult more result := by
  rw [outcome, h ⟨[], []⟩]
  cases result <;> rfl

end Session

end GrammarTools
