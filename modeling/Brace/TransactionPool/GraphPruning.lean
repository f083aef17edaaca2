import Brace.TransactionPool.PruneRound

/-!
# Pruning the dependency graph

Pruning takes out the provider of a tag, then each provider of a pruned transaction that unlocks
nothing else (`Pruned`), and leaves the pruned transactions in `best` that depended on nothing
else than the provider of the tag. So the graph stays exact when every pruned transaction has a
provider besides the first one, and only then.
-/

namespace Brace.TransactionPool.ReadyTransactions

open Brace.Lib List

variable {H T : Type} [DecidableEq H] [DecidableEq T]

/-! ## The loop -/

/-- The transactions that a pruning of the tag takes out: its provider, and then each transaction
whose dependents are all taken out. -/
inductive Pruned (queue : ReadyTransactions H T) (tag : T) : H → Prop
  | provider {hash : H} : queue.Provides tag hash → Pruned queue tag hash
  | previous {dependent hash : H} : queue.Depends dependent hash →
      (∀ other, queue.Depends other hash → Pruned queue tag other) → Pruned queue tag hash

/-- The transaction has no provider in the queue besides the provider of the tag. -/
def DependsOnlyOn (queue : ReadyTransactions H T) (tag : T) (hash : H) : Prop :=
  ∀ provider, queue.Depends hash provider → queue.Provides tag provider

/-- The invariant of a pruning: what is done has to be pruned, in the order of the dependencies
after the first one, and the stack has the tags of what is left to prune. -/
structure Pruning (queue : ReadyTransactions H T) (tag : T) (done : List H) (stack : List T)
    (current : ReadyTransactions H T) : Prop where
  graph : Graph (fun ref => ∃ hash ∈ done, refAt queue.ready hash = some ref ∧
    queue.DependsOnlyOn tag hash) current
  hashes : ∀ hash ref, refAt queue.ready hash = some ref → ref.transaction.hash = hash
  refs : ∀ hash, refAt current.ready hash = if hash ∈ done then none else refAt queue.ready hash
  sound : ∀ hash ∈ done, Pruned queue tag hash
  ordered : ∀ hash ∈ done, ¬ queue.Provides tag hash → ∀ other, queue.Depends other hash →
    other ∈ done
  first : (stack = [tag] ∧ done = []) ∨ ∀ hash, queue.Provides tag hash → hash ∈ done
  stackSound : ∀ name ∈ stack, ∀ hash, hash ∉ done → queue.Provides name hash →
    queue.Provides tag hash ∨ (∃ other, queue.Depends other hash) ∧
      ∀ other, queue.Depends other hash → other ∈ done
  covered : ∀ hash, (∃ other, queue.Depends other hash) →
    (∀ other, queue.Depends other hash → other ∈ done) →
      hash ∈ done ∨ ∀ name, queue.Provides name hash → name ∈ stack

section Left

variable {queue current : ReadyTransactions H T} {done : List H}
  (refs : ∀ hash, refAt current.ready hash = if hash ∈ done then none else refAt queue.ready hash)

include refs

omit [DecidableEq T]

theorem provides_left_iff (name : T) (hash : H) :
    current.Provides name hash ↔ queue.Provides name hash ∧ hash ∉ done := by
  simp only [Provides, refs]
  by_cases finished : hash ∈ done
  · simp [finished]
  · simp [finished]

theorem depends_left_iff (dependent provider : H) :
    current.Depends dependent provider ↔
      queue.Depends dependent provider ∧ dependent ∉ done ∧ provider ∉ done := by
  simp only [Depends, refs, provides_left_iff refs]
  by_cases finished : dependent ∈ done
  · simp [finished]
  · simp only [finished, if_false, not_false_eq_true, true_and]
    constructor
    · rintro ⟨ref, found, name, required, provides, stays⟩
      exact ⟨⟨ref, found, name, required, provides⟩, stays⟩
    · rintro ⟨⟨ref, found, name, required, provides⟩, stays⟩
      exact ⟨ref, found, name, required, provides, stays⟩

end Left

namespace Pruning

variable {queue current : ReadyTransactions H T} {tag : T} {done : List H} {stack : List T}

theorem start (graph : Graph (fun _ => False) queue) (tag : T) :
    Pruning queue tag [] [tag] queue where
  graph := by simpa using graph
  hashes := graph.provided.hash
  refs hash := by simp
  sound hash mem := absurd mem List.not_mem_nil
  ordered hash mem := absurd mem List.not_mem_nil
  first := .inl ⟨rfl, rfl⟩
  stackSound name mem hash _ provides := .inl (List.mem_singleton.mp mem ▸ provides)
  covered hash := by
    rintro ⟨other, depends⟩ all
    exact absurd (all other depends) not_mem_nil

variable {rest : List T} {name : T}

theorem skip (pruning : Pruning queue tag done (name :: rest) current)
    (unmapped : current.providedTags.lookup name = none) : Pruning queue tag done rest current := by
  have absent : ∀ hash, queue.Provides name hash → hash ∈ done := by
    intro hash provides
    by_contra stays
    exact pruning.graph.unmapped_iff.mp unmapped
      ⟨hash, (provides_left_iff pruning.refs name hash).mpr ⟨provides, stays⟩⟩
  refine ⟨pruning.graph, pruning.hashes, pruning.refs, pruning.sound, pruning.ordered, ?_, ?_, ?_⟩
  · rcases pruning.first with ⟨single, -⟩ | done
    · obtain ⟨rfl, -⟩ := List.cons.inj single
      exact .inr absent
    · exact .inr done
  · exact fun other mem => pruning.stackSound other (mem_cons_of_mem _ mem)
  · intro hash some all
    by_cases finished : hash ∈ done
    · exact .inl finished
    · refine .inr fun other provides => ?_
      have mem := ((pruning.covered hash some all).resolve_left finished) other provides
      refine (mem_cons.mp mem).resolve_left ?_
      rintro rfl
      exact finished (absent hash provides)

theorem unblocked_iff (graph : Graph (fun _ => False) queue) {hash : H}
    (pruning : Pruning queue tag done (name :: rest) current)
    (mapped : current.providedTags.lookup name = some hash) {ref : TransactionRef H T}
    (found : refAt current.ready hash = some ref) :
    current.Unblocked ref ↔ queue.DependsOnlyOn tag hash := by
  obtain ⟨provides, stays⟩ :=
    (provides_left_iff pruning.refs name hash).mp (pruning.graph.mapped_iff.mp mapped)
  rw [pruning.graph.unblocked_iff, pruning.graph.provided.hash hash ref found, and_iff_right found]
  constructor
  · intro free provider depends
    by_contra other
    have finished : provider ∈ done := by
      by_contra left
      exact free provider ((depends_left_iff pruning.refs hash provider).mpr ⟨depends, stays, left⟩)
    exact stays (pruning.ordered provider finished other hash depends)
  · intro only provider depends
    obtain ⟨before, -, left⟩ := (depends_left_iff pruning.refs hash provider).mp depends
    rcases pruning.first with ⟨single, -⟩ | first
    · -- the first transaction to prune would be its own provider
      obtain ⟨rfl, -⟩ := List.cons.inj single
      obtain rfl := graph.provider_unique provides (only provider before)
      exact graph.not_depends_self hash before
    · exact left (first provider (only provider before))

section Taking

variable {next : ReadyTransactions H T} {hash : H}

variable {pushed : List T}

/-- A round pushes the tags of the providers whose dependents are all pruned. -/
theorem mem_pushed (pruning : Pruning queue tag done stack current) (stays : hash ∉ done)
    (refs : ∀ other, refAt next.ready other =
      if other ∈ hash :: done then none else refAt queue.ready other)
    {stale : TransactionRef H T → Prop} (nextGraph : Graph stale next)
    (pushes : ∀ name, name ∈ pushed ↔ ∃ other after, current.Depends hash other ∧
      next.ready.lookup other = some after ∧ after.unlocks = [] ∧ name ∈ after.provides)
    (name : T) :
    name ∈ pushed ↔ ∃ other, queue.Depends hash other ∧
      (∀ dependent, ¬ next.Depends dependent other) ∧ next.Provides name other := by
  rw [pushes]
  constructor
  · rintro ⟨other, after, depends, found, empty, own⟩
    refine ⟨other, ((depends_left_iff pruning.refs hash other).mp depends).1,
      fun dependent later => ?_, after.transaction, by rw [refAt, found]; rfl, own⟩
    have mem := (nextGraph.mem_unlocks_iff found).mpr later
    rw [empty] at mem
    exact absurd mem not_mem_nil
  · rintro ⟨other, depends, free, provides⟩
    have left := ((provides_left_iff refs name other).mp provides).2
    rw [mem_cons, not_or] at left
    obtain ⟨ref, there, own⟩ := provides
    obtain ⟨after, found, rfl⟩ := lookup_of_refAt there
    refine ⟨other, after, (depends_left_iff pruning.refs hash other).mpr ⟨depends, stays, left.2⟩,
      found, eq_nil_iff_forall_not_mem.mpr fun dependent mem => ?_, own⟩
    exact free dependent ((nextGraph.mem_unlocks_iff found).mp mem)

theorem take (graph : Graph (fun _ => False) queue) {rest : List T} {name : T}
    (pruning : Pruning queue tag done (name :: rest) current)
    (mapped : current.providedTags.lookup name = some hash)
    (one : PrunedOne current next hash) (provided : Provided ∅ next.providedTags next.ready)
    (pushes : ∀ name, name ∈ pushed ↔ ∃ other after, current.Depends hash other ∧
      next.ready.lookup other = some after ∧ after.unlocks = [] ∧ name ∈ after.provides) :
    Pruning queue tag (hash :: done) (pushed ++ rest) next := by
  obtain ⟨provides, stays⟩ :=
    (provides_left_iff pruning.refs name hash).mp (pruning.graph.mapped_iff.mp mapped)
  obtain ⟨ref, found, -⟩ := pruning.graph.mapped_iff.mp mapped
  have before : refAt queue.ready hash = some ref := by
    rw [← found, pruning.refs, if_neg stays]
  have reached := pruning.stackSound name mem_cons_self hash stays provides
  have nextGraph := one.graph pruning.graph (fun ref ⟨other, finished, there, _⟩ => by
    rw [pruning.hashes other ref there, ← refAt_eq_none, pruning.refs, if_pos finished]) provided
  have stale : (fun ref => (refAt current.ready hash = some ref ∧ current.Unblocked ref) ∨
      ∃ hash ∈ done, refAt queue.ready hash = some ref ∧ queue.DependsOnlyOn tag hash) =
        fun ref => ∃ other ∈ hash :: done, refAt queue.ready other = some ref ∧
          queue.DependsOnlyOn tag other := by
    funext other
    simp only [exists_mem_cons_iff, before, found, Option.some.injEq]
    apply propext
    apply or_congr_left
    apply and_congr_right
    rintro rfl
    exact pruning.unblocked_iff graph mapped found
  have refs : ∀ other, refAt next.ready other =
      if other ∈ hash :: done then none else refAt queue.ready other := by
    intro other
    rw [one.refs, pruning.refs]
    by_cases same : other = hash
    · simp [same]
    · simp [same]
  have nextDepends := depends_left_iff refs
  have nextProvides := provides_left_iff refs
  have pushedIff := pruning.mem_pushed stays refs nextGraph pushes
  refine ⟨stale ▸ nextGraph, pruning.hashes, refs, ?_, ?_, ?_, ?_, ?_⟩
  · intro other mem
    rcases mem_cons.mp mem with rfl | earlier
    · rcases reached with first | ⟨⟨dependent, depends⟩, all⟩
      · exact .provider first
      · exact .previous depends fun next depends => pruning.sound next (all next depends)
    · exact pruning.sound other earlier
  · intro other mem notFirst dependent depends
    rcases mem_cons.mp mem with rfl | earlier
    · exact mem_cons_of_mem _ ((reached.resolve_left notFirst).2 dependent depends)
    · exact mem_cons_of_mem _ (pruning.ordered other earlier notFirst dependent depends)
  · rcases pruning.first with ⟨single, -⟩ | first
    · obtain ⟨rfl, -⟩ := List.cons.inj single
      exact .inr fun other again => graph.provider_unique provides again ▸ mem_cons_self
    · exact .inr fun other again => mem_cons_of_mem _ (first other again)
  -- A tag just pushed belongs to a transaction whose last dependent was the one taken.
  · intro pushedName mem other left own
    rcases mem_append.mp mem with isPushed | earlier
    · obtain ⟨previous, depends, free, again⟩ := (pushedIff pushedName).mp isPushed
      obtain rfl := nextGraph.provider_unique again ((nextProvides _ _).mpr ⟨own, left⟩)
      refine .inr ⟨⟨hash, depends⟩, fun dependent later => ?_⟩
      by_contra remains
      exact free dependent ((nextDepends _ _).mpr ⟨later, remains, left⟩)
    · rw [mem_cons, not_or] at left
      refine (pruning.stackSound pushedName (mem_cons_of_mem _ earlier) other left.2 own).imp_right
        fun old => ⟨old.1, fun dependent depends => mem_cons_of_mem _ (old.2 dependent depends)⟩
  · intro other some all
    by_cases finished : other ∈ hash :: done
    · exact .inl finished
    · refine .inr fun otherName own => mem_append.mpr ?_
      rw [mem_cons, not_or] at finished
      -- Whoever waits for the one taken is pushed now; the others were on the stack before.
      by_cases here : queue.Depends hash other
      · refine .inl ((pushedIff otherName).mpr ⟨other, here, fun dependent depends => ?_, ?_⟩)
        · obtain ⟨before, remains, -⟩ := (nextDepends dependent other).mp depends
          exact remains (all dependent before)
        · exact (nextProvides _ _).mpr ⟨own, by rwa [mem_cons, not_or]⟩
      · have earlier : ∀ dependent, queue.Depends dependent other → dependent ∈ done := by
          intro dependent depends
          refine (mem_cons.mp (all dependent depends)).resolve_left ?_
          rintro rfl
          exact here depends
        have mem := ((pruning.covered other some earlier).resolve_left finished.2) otherName own
        refine .inr ((mem_cons.mp mem).resolve_left ?_)
        rintro rfl
        exact finished.1 (graph.provider_unique own provides)

end Taking

end Pruning

variable {queue after : ReadyTransactions H T} {tag : T} {removed : List (Transaction H T)}

/-- **Pruning.** A pruning of a graph takes out exactly the transactions that have to be pruned,
and leaves in `best` those that depended on nothing else than the provider of the tag. -/
theorem pruneTags_graph (graph : Graph (fun _ => False) queue) (tag : T) :
    ∃ after removed, queue.pruneTags tag = .ok (after, removed) ∧
      (∀ hash, Pruned queue tag hash → refAt after.ready hash = none) ∧
      Graph (fun ref => ∃ hash, Pruned queue tag hash ∧ refAt queue.ready hash = some ref ∧
        queue.DependsOnlyOn tag hash) after := by
  let inv := fun (state : ReadyTransactions H T × List (Transaction H T)) (stack : List T) =>
    ∃ done, Pruning queue tag done stack state.1
  have start : inv (queue, []) [tag] := ⟨[], Pruning.start graph tag⟩
  obtain ⟨after, removed, ended, -, -, done, pruning⟩ := pruneTags_rule inv graph.provided start
    (fun state name rest ⟨done, pruning⟩ unmapped => ⟨done, pruning.skip unmapped⟩) (by
      rintro state name rest hash tx next pushed ⟨done, pruning⟩ - mapped stored ran provided
      obtain ⟨after, names, again, one, pushes⟩ :=
        pruneNext_prunedOne pruning.graph.toLive mapped stored state.2
      obtain ⟨rfl, rfl⟩ := ok_pair_inj (ran.symm.trans again)
      exact ⟨hash :: done, pruning.take graph mapped one provided pushes⟩)
  have all : ∀ hash, Pruned queue tag hash ↔ hash ∈ done := by
    intro hash
    refine ⟨fun pruned => ?_, pruning.sound hash⟩
    induction pruned with
    | provider provides =>
      exact (pruning.first.resolve_left fun first => nomatch first.1) _ provides
    | previous depends _ ih =>
      refine (pruning.covered _ ⟨_, depends⟩ ih).resolve_right fun empty => ?_
      obtain ⟨-, -, name, -, provides⟩ := depends
      exact absurd (empty name provides) not_mem_nil
  refine ⟨after, removed, ended, fun hash pruned => ?_, ?_⟩
  · rw [pruning.refs, if_pos ((all hash).mp pruned)]
  · simpa only [all] using pruning.graph

/-- No pruned transaction depends on nothing else than the provider of the tag. -/
def PrunesBlocked (queue : ReadyTransactions H T) (tag : T) : Prop :=
  ∀ hash, Pruned queue tag hash → ¬ queue.DependsOnlyOn tag hash

/-- **Pruning of a tag.** The graph stays exact when every pruned transaction has a provider
besides the provider of the tag, and only then. -/
theorem pruneTags_exact_iff (graph : Graph (fun _ => False) queue)
    (ran : queue.pruneTags tag = .ok (after, removed)) :
    (after.Exact ↔ queue.PrunesBlocked tag) ∧
      (queue.PrunesBlocked tag → Graph (fun _ => False) after) := by
  obtain ⟨other, list, again, gone, left⟩ := pruneTags_graph graph tag
  obtain ⟨rfl, -⟩ := ok_pair_inj (ran.symm.trans again)
  have keeps : queue.PrunesBlocked tag → Graph (fun _ => False) after := by
    intro blocked
    have none : (fun ref => ∃ hash, Pruned queue tag hash ∧ refAt queue.ready hash = some ref ∧
        queue.DependsOnlyOn tag hash) = fun _ : TransactionRef H T => False := by
      funext ref
      apply eq_false
      rintro ⟨hash, pruned, -, only⟩
      exact blocked hash pruned only
    rwa [none] at left
  refine ⟨⟨fun exact hash pruned only => ?_, fun blocked => (keeps blocked).exact⟩, keeps⟩
  obtain ⟨ref, found⟩ : ∃ ref, refAt queue.ready hash = some ref := by
    cases pruned with
    | provider provides => exact provides.imp fun ref found => found.1
    | previous depends _ =>
      obtain ⟨-, -, -, -, ref, found, -⟩ := depends
      exact ⟨ref, found⟩
  have named := graph.provided.hash hash ref found
  have absent : ref.transaction.hash ∉ after.ready := by
    rw [named, ← refAt_eq_none]
    exact gone hash pruned
  have mem := (left.left ref absent).mpr ⟨hash, pruned, found, only⟩
  exact absent (mem_of_refAt ((exact.best ref).mp mem).1)

/-- **Pruning of a tag** keeps a queue live. -/
theorem pruneTags_live (live : Live queue) (ran : queue.pruneTags tag = .ok (after, removed)) :
    Live after := by
  obtain ⟨last, list, again, -, -, kept⟩ := pruneTags_rule (fun state _ => Live state.1)
    live.provided live (fun _ _ _ current _ => current) (by
      intro state name rest hash tx next pushed current _ mapped stored ran provided
      obtain ⟨after, names, again, one, -⟩ := pruneNext_prunedOne current mapped stored state.2
      obtain ⟨rfl, -⟩ := ok_pair_inj (ran.symm.trans again)
      exact one.live current provided)
  obtain ⟨rfl, -⟩ := ok_pair_inj (ran.symm.trans again)
  exact kept

end Brace.TransactionPool.ReadyTransactions
