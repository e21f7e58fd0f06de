import Mathlib.Data.List.Induction
import Mathlib.Logic.Function.Basic
import ToolGate.Proofs.Label.Sealing
import ToolGate.Proofs.Provenance.Growth
import ToolGate.Proofs.Token.Admission
import ToolGate.Verdict.Evaluation

namespace ToolGate

inductive ValueEvent where
  | create (v : Proposal)
  | record (id : Number) (v : Proposal)

def ValueEvent.on (e : ValueEvent) (seals : Seals) (g : Graph) : Except GraphFault (Node × Graph) :=
  match e with
  | .create v => g.create seals v
  | .record id v => g.insert seals id v

namespace ValueEvent

def id (e : ValueEvent) (g : Graph) : Number :=
  match e with
  | .create _ => .ofNat (g.last + 1)
  | .record id _ => id

def proposal : ValueEvent → Proposal
  | .create v => v
  | .record _ v => v

theorem on_eq (e : ValueEvent) (seals : Seals) (g : Graph) :
    e.on seals g = g.insert seals (e.id g) e.proposal := by
  cases e <;> rfl

theorem budgets_of_on {g g' : Graph} {e : ValueEvent} {seals : Seals} {n : Node}
    (h : e.on seals g = .ok (n, g')) : g'.budgets = g.budgets := by
  rw [on_eq, Graph.insert_ok] at h
  obtain ⟨-, -, -, -, -, -, -, -, rfl⟩ := h
  rfl

end ValueEvent

theorem Graph.Reached.on {g g' : Graph} {e : ValueEvent} {seals : Seals} {n : Node}
    (hg : g.Reached) (h : e.on seals g = .ok (n, g')) : g'.Reached := by
  rw [e.on_eq] at h
  exact hg.record h

/-- All registries share the seals: what one has issued counts for every graph. -/
structure Host (Candidate : Type) where
  registries : Nat → Registry Candidate
  seals : Seals
  execution : Execution
  events : List ValueEvent

inductive Act (Candidate : Type) where
  | register (registry : Nat) (tag : String) (v : Verifier Candidate)
  | verify (registry : Nat) (tag : String) (candidate : Candidate)
  | value (e : ValueEvent)
  | reset
  | mint (clock : Clock) (ids : IdSource) (r : MintRequest)
  | delegate (clock : Clock) (ids : IdSource) (parent : String) (r : DelegationRequest)
  | revoke (id : String)
  | evaluate (r : Request) (now : Reading)

namespace Host

variable {Candidate : Type}

def start (id : String) (p : Policy) (t : Table) : Host Candidate :=
  ⟨fun _ => [], [], .start id p t, []⟩

def setGraph (h : Host Candidate) (graph : Graph) (events : List ValueEvent) : Host Candidate :=
  { h with execution := { h.execution with graph }, events }

def setTable (h : Host Candidate) (table : Table) : Host Candidate :=
  { h with execution := { h.execution with table } }

def act (h : Host Candidate) : Act Candidate → Host Candidate
  | .register i tag v =>
      match (h.registries i).register tag v with
      | .error _ => h
      | .ok r => { h with registries := Function.update h.registries i r }
  | .verify i tag candidate =>
      match (h.registries i).verify tag candidate h.seals with
      | .error _ => h
      | .ok (_, seals) => { h with seals }
  | .value e =>
      match e.on h.seals h.execution.graph with
      | .error _ => h
      | .ok (_, g) => h.setGraph g (h.events ++ [e])
  | .reset => h.setGraph h.execution.graph.reset []
  | .mint clock ids r =>
      match (h.execution.table.mint clock ids r).1 with
      | .error _ => h
      | .ok (_, t) => h.setTable t
  | .delegate clock ids parent r =>
      match (h.execution.table.delegate clock ids parent r).1 with
      | .error _ | .ok (.error _) => h
      | .ok (.ok (_, t)) => h.setTable t
  | .revoke id =>
      match h.execution.table.revoke id with
      | .error _ => h
      | .ok (_, t) => h.setTable t
  | .evaluate _ _ => h

def run (h : Host Candidate) (acts : List (Act Candidate)) : Host Candidate :=
  acts.foldl act h

theorem run_append (h : Host Candidate) (acts more : List (Act Candidate)) :
    h.run (acts ++ more) = (h.run acts).run more :=
  List.foldl_append

inductive Step (h : Host Candidate) : Act Candidate → Host Candidate → Prop
  | idle {a} : Step h a h
  | register {i tag v r} : (h.registries i).register tag v = .ok r →
      Step h (.register i tag v) { h with registries := Function.update h.registries i r }
  | verify {i tag candidate s seals} :
      (h.registries i).verify tag candidate h.seals = .ok (some s, seals) →
      Step h (.verify i tag candidate) { h with seals }
  | value {e n g} : e.on h.seals h.execution.graph = .ok (n, g) →
      Step h (.value e) (h.setGraph g (h.events ++ [e]))
  | reset : Step h .reset (h.setGraph h.execution.graph.reset [])
  | mint {clock ids r k t} : (h.execution.table.mint clock ids r).1 = .ok (k, t) →
      Step h (.mint clock ids r) (h.setTable t)
  | delegate {clock ids parent r k t} :
      (h.execution.table.delegate clock ids parent r).1 = .ok (.ok (k, t)) →
      Step h (.delegate clock ids parent r) (h.setTable t)
  | revoke {id changed t} : h.execution.table.revoke id = .ok (changed, t) →
      Step h (.revoke id) (h.setTable t)

theorem step_act (h : Host Candidate) (a : Act Candidate) : Step h a (h.act a) := by
  cases a with
  | register i tag v =>
      rw [act]
      split
      · exact .idle
      · exact .register ‹_›
  | verify i tag candidate =>
      rw [act]
      split
      · exact .idle
      · rename_i s seals hverify
        cases s with
        | none =>
            rw [Registry.verify_none hverify]
            exact .idle
        | some s => exact .verify hverify
  | value e =>
      rw [act]
      split
      · exact .idle
      · exact .value ‹_›
  | reset => exact .reset
  | mint clock ids r =>
      rw [act]
      split
      · exact .idle
      · exact .mint ‹_›
  | delegate clock ids parent r =>
      rw [act]
      split
      · exact .idle
      · exact .idle
      · exact .delegate ‹_›
  | revoke id =>
      rw [act]
      split
      · exact .idle
      · exact .revoke ‹_›
  | evaluate r now => exact .idle

theorem run_induction {h : Host Candidate} {P : List (Act Candidate) → Host Candidate → Prop}
    (start : P [] h)
    (step : ∀ acts a h', P acts (h.run acts) → Step (h.run acts) a h' → P (acts ++ [a]) h')
    (acts : List (Act Candidate)) : P acts (h.run acts) := by
  induction acts using List.reverseRecOn with
  | nil => exact start
  | append_singleton acts a ih =>
      rw [run_append]
      exact step acts a _ ih (step_act _ a)

structure Proper (id : String) (p : Policy) (h : Host Candidate) : Prop where
  execution : h.execution.id = id
  policy : h.execution.policy = p
  graph : h.execution.graph.Reached
  budgets : h.execution.graph.budgets = ⟨p.budgets.values, p.budgets.parentsPerValue⟩

variable {h h' : Host Candidate} {a : Act Candidate} {id : String} {p : Policy} {t : Table}

theorem Step.seals_prefix (hs : Step h a h') : h.seals <+: h'.seals := by
  cases hs with
  | verify hverify =>
      obtain ⟨-, -, rfl⟩ := Registry.verify_some hverify
      exact List.prefix_append _ _
  | _ => exact List.prefix_rfl

theorem Step.proper (hs : Step h a h') (hp : Proper id p h) : Proper id p h' := by
  cases hs with
  | value hon =>
      exact { hp with
        graph := hp.graph.on hon
        budgets := (ValueEvent.budgets_of_on hon).trans hp.budgets }
  | reset => exact { hp with graph := hp.graph.reset }
  | _ => exact { hp with }

theorem proper_run (id : String) (p : Policy) (t : Table) (acts : List (Act Candidate)) :
    Proper id p ((start id p t).run acts) := by
  refine run_induction (P := fun _ => Proper id p) ⟨rfl, rfl, .empty _, rfl⟩ ?_ acts
  intro acts a h' hp hs
  exact hs.proper hp

theorem Step.table (hs : Step h a h') (ht : h.execution.table.Reached) :
    h'.execution.table.Reached := by
  cases hs with
  | mint hstep => exact ht.mint hstep
  | delegate hstep => exact ht.delegate hstep
  | revoke hstep => exact ht.revoke hstep
  | _ => exact ht

theorem table_run (id : String) (p : Policy) (ht : t.Reached) (acts : List (Act Candidate)) :
    ((start id p t).run acts).execution.table.Reached := by
  refine run_induction (P := fun _ h => h.execution.table.Reached) ht ?_ acts
  intro acts a h' ht hs
  exact hs.table ht

end Host

end ToolGate
