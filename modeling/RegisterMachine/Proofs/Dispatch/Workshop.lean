import Mathlib.Algebra.BigOperators.Group.Finset.Piecewise
import Mathlib.Data.Fintype.BigOperators
import RegisterMachine.Proofs.Dispatch.Building

/-!
# Builders and tables shared by each other

Any number of builders, each with an emitter of its own, and any number of tables; a request asks
one of the builders to build one of the tables. In whatever order requests come, each table takes at
most one emission pass, and its first answer is repeated to all who ask later.
-/

namespace RegisterMachine

structure Workshop (β τ : Type) (σ : β → Type) where
  builders : (b : β) → TableBuilder (σ b)
  tables : τ → DispatchTable

structure Request (β τ : Type) where
  builder : β
  table : τ
  deriving DecidableEq

namespace Workshop

variable {β τ : Type} [DecidableEq β] [DecidableEq τ] {σ : β → Type}

def opening (emitters : (b : β) → Emitter (σ b)) (states : (b : β) → σ b) : Workshop β τ σ where
  builders b := .fresh (emitters b) (states b)
  tables _ := .empty

def request (w : Workshop β τ σ) (r : Request β τ) : BuildAnswer × Workshop β τ σ :=
  let result := (w.builders r.builder).ensureBuilt (w.tables r.table)
  (result.1, ⟨Function.update w.builders r.builder result.2.1,
    Function.update w.tables r.table result.2.2⟩)

def after (w : Workshop β τ σ) (requests : List (Request β τ)) : Workshop β τ σ :=
  requests.foldl (fun w r => (w.request r).2) w

def answers (w : Workshop β τ σ) (t : τ) : List (Request β τ) → List BuildAnswer
  | [] => []
  | r :: rest =>
    if r.table = t then (w.request r).1 :: (w.request r).2.answers t rest
    else (w.request r).2.answers t rest

theorem tables_request_self (w : Workshop β τ σ) (r : Request β τ) :
    (w.request r).2.tables r.table =
      ((w.builders r.builder).ensureBuilt (w.tables r.table)).2.2 :=
  Function.update_self ..

theorem tables_request_of_ne (w : Workshop β τ σ) {r : Request β τ} {t : τ} (h : r.table ≠ t) :
    (w.request r).2.tables t = w.tables t :=
  Function.update_of_ne h.symm ..

theorem after_concat (w : Workshop β τ σ) (requests : List (Request β τ)) (r : Request β τ) :
    w.after (requests ++ [r]) = ((w.after requests).request r).2 := by
  rw [after, List.foldl_append]
  rfl

theorem length_answers (w : Workshop β τ σ) (t : τ) (requests : List (Request β τ)) :
    (w.answers t requests).length = (requests.map (·.table)).count t := by
  induction requests generalizing w with
  | nil => rfl
  | cons r rest ih =>
    rw [answers, List.map_cons, List.count_cons]
    by_cases ht : r.table = t
    · simp [ht, ih]
    · simp [ht, ih]

theorem answers_ne_nil {w : Workshop β τ σ} {t : τ} {requests : List (Request β τ)}
    (h : t ∈ requests.map (·.table)) : w.answers t requests ≠ [] := by
  intro hn
  have hcount := w.length_answers t requests
  rw [hn] at hcount
  exact absurd hcount.symm (Nat.ne_of_gt (List.count_pos_iff.mpr h))

theorem answers_eq_nil {w : Workshop β τ σ} {t : τ} {requests : List (Request β τ)}
    (h : t ∉ requests.map (·.table)) : w.answers t requests = [] := by
  apply List.eq_nil_of_length_eq_zero
  rw [length_answers, List.count_eq_zero.mpr h]

/-- Along any requests the life of each table goes on as its answers tell. -/
theorem chronicle_after {w : Workshop β τ σ} {t : τ} {past : List BuildAnswer}
    (h : Chronicle past (w.tables t)) (requests : List (Request β τ)) :
    Chronicle (past ++ w.answers t requests) ((w.after requests).tables t) := by
  induction requests generalizing w past with
  | nil =>
    rw [answers, List.append_nil]
    exact h
  | cons r rest ih =>
    rw [answers]
    by_cases ht : r.table = t
    · subst ht
      have hnext : Chronicle (past ++ [(w.request r).1]) ((w.request r).2.tables r.table) := by
        rw [tables_request_self]
        exact h.request ((w.builders r.builder).ensures _)
      rw [if_pos rfl, List.append_cons]
      exact ih hnext
    · rw [if_neg ht]
      exact ih (w.tables_request_of_ne ht ▸ h)

theorem chronicle_opening (emitters : (b : β) → Emitter (σ b)) (states : (b : β) → σ b)
    (requests : List (Request β τ)) (t : τ) :
    Chronicle ((opening emitters states).answers t requests)
      (((opening emitters states).after requests).tables t) :=
  chronicle_after (w := opening emitters states) .fresh requests

theorem request_eq {w : Workshop β τ σ} {r : Request β τ} (h : (w.tables r.table).Settled) :
    (w.request r).2 = w := by
  have hr := ((w.builders r.builder).ensures _).eq_of_settled h
  simp only [request, hr, Function.update_eq_self]

theorem tables_after {w : Workshop β τ σ} {t : τ} (h : (w.tables t).Settled)
    (requests : List (Request β τ)) : (w.after requests).tables t = w.tables t := by
  induction requests generalizing w with
  | nil => rfl
  | cons r rest ih =>
    have hnext : (w.request r).2.tables t = w.tables t := by
      by_cases ht : r.table = t
      · subst ht
        rw [request_eq h]
      · exact w.tables_request_of_ne ht
    rw [← hnext]
    exact ih (hnext ▸ h)

variable [Fintype β]

def passes (w : Workshop β τ σ) : Nat := ∑ b, (w.builders b).passes

theorem passes_request {w : Workshop β τ σ} {r : Request β τ} (h : w.tables r.table = .empty) :
    (w.request r).2.passes = w.passes + 1 := by
  have hr : ((w.builders r.builder).ensureBuilt (w.tables r.table)).2.1.passes =
      (w.builders r.builder).passes + 1 := by
    obtain ⟨answer, next, table, he, hp, _⟩ := (w.builders r.builder).ensureBuilt_empty
    rw [h, he, hp]
  have hupdate : ∀ b, ((w.request r).2.builders b).passes =
      Function.update (fun b => (w.builders b).passes) r.builder
        ((w.builders r.builder).passes + 1) b := by
    intro b
    rw [← hr]
    exact Function.apply_update (fun _ => TableBuilder.passes) w.builders r.builder _ b
  simp only [passes, hupdate]
  rw [Finset.sum_update_of_mem (Finset.mem_univ r.builder), Finset.sdiff_singleton_eq_erase,
    Nat.add_right_comm, Finset.add_sum_erase _ (fun b => (w.builders b).passes)
      (Finset.mem_univ r.builder)]

/-- There are as many emission passes as tables that have been requested. -/
theorem passes_after_opening (emitters : (b : β) → Emitter (σ b)) (states : (b : β) → σ b)
    (requests : List (Request β τ)) :
    ((opening emitters states).after requests).passes =
      (requests.map (·.table)).toFinset.card := by
  induction requests using List.reverseRecOn with
  | nil => simp [after, opening, passes, TableBuilder.fresh]
  | append_singleton requests r ih =>
    have hc := chronicle_opening emitters states requests r.table
    rw [after_concat, List.map_append, List.map_singleton, List.toFinset_append,
      List.toFinset_cons, List.toFinset_nil, insert_empty_eq]
    by_cases hm : r.table ∈ requests.map (·.table)
    · have hunion : (requests.map (·.table)).toFinset ∪ {r.table} =
          (requests.map (·.table)).toFinset := by
        apply Finset.union_eq_left.mpr
        simpa using hm
      rw [request_eq (hc.settled (answers_ne_nil hm)), ih, hunion]
    · have hnotMem : r.table ∉ (requests.map (·.table)).toFinset := by simpa using hm
      rw [answers_eq_nil hm] at hc
      rw [passes_request hc.eq_empty, ih, Finset.union_singleton, Finset.card_insert_of_notMem hnotMem]

/-- Whatever is requested in a new workshop, each table lives a chronicle of one answer per request
and is seen whole or not at all; it records a failure if its first request failed. A table that has
been requested is never touched again, by any builder, and no emitter is called for it. -/
theorem single_flight (emitters : (b : β) → Emitter (σ b)) (states : (b : β) → σ b)
    (requests : List (Request β τ)) :
    let first := opening emitters states
    let now := first.after requests
    (∀ t, Chronicle (first.answers t requests) (now.tables t) ∧
      (first.answers t requests).length = (requests.map (·.table)).count t ∧
      (now.tables t).Whole ∧
      ∀ e, (now.tables t).failure? = some e ↔
        (first.answers t requests).head? = some (.error (.emission e))) ∧
    (∀ r, r.table ∈ requests.map (·.table) → (now.request r).2 = now) ∧
    (∀ t later, (now.tables t).built = true → (now.after later).tables t = now.tables t) ∧
    ∑ b, (now.builders b).passes = (requests.map (·.table)).toFinset.card := by
  intro first now
  have hchronicle : ∀ t, Chronicle (first.answers t requests) (now.tables t) :=
    chronicle_opening emitters states requests
  refine ⟨fun t => ?_, fun r hr => ?_, fun t later hb => ?_, ?_⟩
  · exact ⟨hchronicle t, first.length_answers t requests, (hchronicle t).whole,
      (hchronicle t).failure_iff⟩
  · exact request_eq ((hchronicle r.table).settled (answers_ne_nil hr))
  · exact tables_after (Or.inl hb) later
  · exact passes_after_opening emitters states requests

end Workshop

end RegisterMachine
