import Brace.TransactionPool.GraphImport
import Brace.TransactionPool.GraphPruning

/-!
# Runs of the ready queue

The operations of `ReadyTransactions` that change the queue, and what a run of them keeps. The
dependency graph is exact along a run exactly as long as every step keeps it: an import that is
refused or fits, a removal that leaves no provider of a removed transaction, a pruning of
transactions that all have a provider besides the provider of the tag.
-/

namespace Brace.TransactionPool.ReadyTransactions

open Brace.Lib

variable {H T : Type} [DecidableEq H] [DecidableEq T]

/-- The operations that change a ready queue. -/
inductive Op (H T : Type)
  | importTransaction (order : Order H T) (tx : WaitingTransaction H T)
  | removeSubtree (hashes : List H)
  | pruneTags (tag : T)

/-- One operation, without its result. -/
def step (queue : ReadyTransactions H T) : Op H T → Except Panic (ReadyTransactions H T)
  | .importTransaction order tx => (·.1) <$> queue.importTransaction order tx
  | .removeSubtree hashes => (·.1) <$> queue.removeSubtree hashes
  | .pruneTags tag => (·.1) <$> queue.pruneTags tag

variable (allowed : Transaction H T → Prop)

/-- The transactions that an operation brings satisfy a condition. -/
def Op.Brings : Op H T → Prop
  | .importTransaction _ tx => allowed tx.transaction
  | _ => True

instance [DecidablePred allowed] (op : Op H T) : Decidable (op.Brings allowed) :=
  match op with
  | .importTransaction _ tx => inferInstanceAs (Decidable (allowed tx.transaction))
  | .removeSubtree _ => .isTrue trivial
  | .pruneTags _ => .isTrue trivial

/-! ## Exactness -/

/-- The operation keeps the graph of the queue exact. -/
def KeepsGraph (queue : ReadyTransactions H T) : Op H T → Prop
  | .importTransaction _ tx => queue.Refused tx.transaction ∨ queue.Fits tx.transaction
  | .removeSubtree hashes => queue.RemovesProviders hashes
  | .pruneTags tag => queue.PrunesBlocked tag

variable {queue : ReadyTransactions H T}

theorem step_exact_iff {next : ReadyTransactions H T} (graph : Graph (fun _ => False) queue)
    {op : Op H T} (tagged : op.Brings Transaction.WellTagged) (ran : step queue op = .ok next) :
    (next.Exact ↔ queue.KeepsGraph op) ∧ (queue.KeepsGraph op → Graph (fun _ => False) next) := by
  cases op with
  | importTransaction order tx =>
    obtain ⟨outcome, called⟩ := map_fst_eq_ok.mp ran
    exact importTransaction_exact_iff graph tagged called
  | removeSubtree hashes =>
    obtain ⟨removed, called⟩ := map_fst_eq_ok.mp ran
    exact removeSubtree_exact_iff graph called
  | pruneTags tag =>
    obtain ⟨removed, called⟩ := map_fst_eq_ok.mp ran
    exact pruneTags_exact_iff graph called

/-- **The dependency graph along a run.** In every state that a run of well tagged transactions
reaches by steps that keep the graph, the three indexes are exact, and the next step leaves them
exact when it keeps the graph, and only then. -/
theorem exact_of_keepsGraph {queue : ReadyTransactions H T}
    (reached : Reachable step (fun queue op => op.Brings Transaction.WellTagged ∧
      queue.KeepsGraph op) {} queue) :
    queue.Exact ∧ ∀ op next, op.Brings Transaction.WellTagged → step queue op = .ok next →
      (next.Exact ↔ queue.KeepsGraph op) := by
  have kept : Graph (fun _ => False) queue := by
    refine reached.invariant graph_empty ?_
    intro state op next graph allowed ran
    exact (step_exact_iff graph allowed.1 ran).2 allowed.2
  exact ⟨kept.exact, fun op next tagged ran => (step_exact_iff kept tagged ran).1⟩

/-- A transaction that requires nothing. -/
def first : WaitingTransaction Nat Nat :=
  { transaction := { bytes := 1, hash := 1, priority := 1, validTill := 64, requires := []
                     provides := [7] }
    missingTags := ∅, importedAt := 0 }

/-- A transaction that requires the tag of `first`. -/
def second : WaitingTransaction Nat Nat :=
  { transaction := { bytes := 1, hash := 2, priority := 1, validTill := 64, requires := [7]
                     provides := [8] }
    missingTags := ∅, importedAt := 0 }

/-- No queued transaction provides or requires a tag of the transaction, and nothing in the queue
names its hash. -/
def Unrelated (queue : ReadyTransactions H T) (tx : Transaction H T) : Prop :=
  (∀ hash ∈ queue.ready.keys, (queue.ready.lookup hash).all (fun queued =>
    tx.hash ∉ queued.unlocks ∧ ∀ tag ∈ tx.provides,
      tag ∉ queued.transaction.transaction.provides ∧
        tag ∉ queued.transaction.transaction.requires) = true) ∧
    ∀ ref ∈ queue.best, ref.transaction.hash ≠ tx.hash

/-- The operation imports a well tagged transaction that is unrelated to the queue. -/
def ImportsUnrelated (queue : ReadyTransactions H T) : Op H T → Prop
  | .importTransaction _ tx => tx.transaction.WellTagged ∧ queue.Unrelated tx.transaction
  | _ => False

instance (queue : ReadyTransactions H T) (op : Op H T) : Decidable (queue.ImportsUnrelated op) :=
  match op with
  | .importTransaction _ tx => inferInstanceAs (Decidable
      (tx.transaction.WellTagged ∧ (∀ hash ∈ queue.ready.keys, _) ∧ ∀ ref ∈ queue.best, _))
  | .removeSubtree _ => .isFalse id
  | .pruneTags _ => .isFalse id

section

variable {tx : Transaction H T} (unrelated : queue.Unrelated tx)

include unrelated

theorem Unrelated.queued {hash : H} {queued : ReadyTx H T}
    (stored : queue.ready.lookup hash = some queued) : tx.hash ∉ queued.unlocks ∧
      ∀ tag ∈ tx.provides, tag ∉ queued.transaction.transaction.provides ∧
        tag ∉ queued.transaction.transaction.requires := by
  have all := unrelated.1 hash (Finmap.mem_keys.mpr (Finmap.mem_of_lookup_eq_some stored))
  rw [stored] at all
  exact of_decide_eq_true all

theorem Unrelated.not_replaces (hash : H) : ¬ queue.Replaces tx hash := by
  rintro ⟨tag, own, ref, found, gives⟩
  obtain ⟨queued, stored, rfl⟩ := Option.map_eq_some_iff.mp found
  exact ((unrelated.queued stored).2 tag own).1 gives

theorem Unrelated.fits : queue.Fits tx := by
  refine ⟨fun hash replaces => absurd replaces (unrelated.not_replaces hash),
    fun hash replaces => absurd replaces (unrelated.not_replaces hash),
    fun hash ref found _ tag required own => ?_⟩
  obtain ⟨queued, stored, rfl⟩ := Option.map_eq_some_iff.mp found
  exact absurd required ((unrelated.queued stored).2 tag own).2

end

theorem ImportsUnrelated.keepsGraph {op : Op H T} (imports : queue.ImportsUnrelated op) :
    op.Brings Transaction.WellTagged ∧ queue.KeepsGraph op := by
  cases op with
  | importTransaction order tx => exact ⟨imports.1, .inr imports.2.fits⟩
  | removeSubtree _ | pruneTags _ => exact imports.elim

/-- The graph is exact after the imports of `first` and of its dependent `second`. -/
theorem exact_after_second : ∃ queue : ReadyTransactions Nat Nat, Reachable step
    (fun queue op => op.Brings Transaction.WellTagged ∧ queue.KeepsGraph op) {} queue ∧
      (queue.ready.lookup 1).any (fun tx => 2 ∈ tx.unlocks) = true ∧ 2 ∈ queue.ready ∧
      queue.Exact := by
  have found : ((run step ImportsUnrelated ({} : ReadyTransactions Nat Nat)
      [.importTransaction (.sorted Nat Nat) first, .importTransaction (.sorted Nat Nat) second]).any
        fun queue => decide ((queue.ready.lookup 1).any (fun tx => 2 ∈ tx.unlocks) = true ∧
          2 ∈ queue.ready)) = true := by
    decide +kernel
  obtain ⟨queue, reached, listed, queued⟩ := exists_reachable_of_run _ found
  have keeps := reached.mono fun _ _ imports => imports.keepsGraph
  exact ⟨queue, keeps, listed, queued, (exact_of_keepsGraph keeps).1⟩

/-- **The graph goes wrong.** After the removal of a dependent its provider still names it, and
after the pruning of a transaction `best` still has it. -/
theorem graph_goes_wrong :
    (∃ queue, Reachable step (fun _ op => op.Brings Transaction.WellTagged)
      ({} : ReadyTransactions Nat Nat) queue ∧ 2 ∉ queue.ready ∧ ¬ queue.Exact) ∧
    ∃ queue, Reachable step (fun _ op => op.Brings Transaction.WellTagged)
      ({} : ReadyTransactions Nat Nat) queue ∧ 1 ∉ queue.ready ∧ ¬ queue.Exact := by
  constructor
  · refine exists_reachable_of_found [.importTransaction (.sorted Nat Nat) first,
        .importTransaction (.sorted Nat Nat) second, .removeSubtree [2]]
      (fun queue => 2 ∉ queue.ready ∧
        (queue.ready.lookup 1).any (fun tx => 2 ∈ tx.unlocks) = true)
      (by decide +kernel) fun queue _ ⟨absent, named⟩ => ?_
    rw [Option.any_eq_true] at named
    obtain ⟨tx, stored, mem⟩ := named
    refine ⟨absent, fun exact => absent ?_⟩
    exact ((exact.unlocks 1 tx stored 2).mp (of_decide_eq_true mem)).mem_dependent
  · refine exists_reachable_of_found [.importTransaction (.sorted Nat Nat) first, .pruneTags 7]
      (fun queue => 1 ∉ queue.ready ∧ ∃ ref ∈ queue.best, ref.transaction.hash = 1)
      (by decide +kernel) fun queue _ ⟨absent, ref, mem, same⟩ => ?_
    refine ⟨absent, fun exact => absent ?_⟩
    exact same ▸ mem_of_refAt ((exact.best ref).mp mem).1

end Brace.TransactionPool.ReadyTransactions
