import Brace.Lib.Loop
import Brace.Lib.OrderedMap

/-!
# The leaf set of a client

`LeafSet` of `client/src/leaves.rs`: the leaves by block number, with two logs of what the next
transaction adds to the database and removes from it. The transaction writes the removals last, so
a hash in both logs is lost on disk (`leaf_lost_on_disk`); in every run whose reverts bring no
removed hash back, the set that is read again is the one in memory (`leaves_on_disk`). Undoing
an import puts the displaced parent at the number of the undone block, so that a sequence of
changes is undone exactly when it imports nothing (`undone_iff`).
-/

namespace Brace.Client

open Brace.Lib List Finmap HashMap

/-- `LeafSet`. The source keys the leaves by the reversed number. -/
structure LeafSet (H : Type) where
  storage : HashMap Nat (List H) := ∅
  pendingAdded : List (H × Nat) := []
  pendingRemoved : List H := []

/-- `ImportDisplaced` -/
structure ImportDisplaced (H : Type) where
  newHash : H
  hash : H
  number : Nat

variable {H : Type} {storage after : HashMap Nat (List H)} {number : Nat} {hash : H}

variable (storage)

def leaves (number : Nat) : List H :=
  (storage.lookup number).getD []

/-- `insert_leaf` -/
def insertLeaf (number : Nat) (hash : H) : HashMap Nat (List H) :=
  storage.alter number fun leaves => leaves.getD [] ++ [hash]

/-- The leaves with their numbers, from the highest number on. -/
def items : List (H × Nat) :=
  storage.entries.reverse.flatMap fun (number, hashes) => hashes.map (·, number)

variable {storage}

theorem leaves_insertLeaf (other : Nat) : leaves (insertLeaf storage number hash) other =
    leaves storage other ++ if other = number then [hash] else [] := by
  rw [leaves, insertLeaf, lookup_alter]
  split <;> simp [leaves]

theorem lookup_retainKeys (test : Nat → Bool) (other : Nat) :
    (storage.retainKeys test).lookup other = if test other then storage.lookup other else none := by
  apply Option.ext
  intro list
  split <;> simp_all [Finmap.lookup_eq_some_iff, retainKeys]

theorem leaves_retainKeys (test : Nat → Bool) (other : Nat) :
    leaves (storage.retainKeys test) other = if test other then leaves storage other else [] := by
  rw [leaves, lookup_retainKeys]
  split <;> rfl

theorem mem_items : (hash, number) ∈ items storage ↔ hash ∈ leaves storage number := by
  simp only [items, mem_flatMap, mem_reverse, Prod.exists, mem_entries]
  unfold leaves
  cases found : storage.lookup number <;> grind

variable [DecidableEq H]

/-- `remove_leaf`, with whether the leaf was contained. -/
def removeLeaf (storage : HashMap Nat (List H)) (number : Nat) (hash : H) :
    HashMap Nat (List H) × Bool :=
  match storage.lookup number with
  | none => (storage, false)
  | some leaves =>
    let kept := leaves.filter (· ≠ hash)
    (if hash ∈ leaves ∧ kept = [] then storage.erase number else storage.insert number kept,
      decide (hash ∈ leaves))

theorem leaves_removeLeaf (other : Nat) : leaves (removeLeaf storage number hash).1 other =
    if other = number then (leaves storage number).filter (· ≠ hash) else leaves storage other := by
  unfold removeLeaf leaves
  cases found : storage.lookup number with
  | none => grind
  | some list =>
    dsimp only
    split
    · rw [lookup_erase_eq]
      grind
    · rw [lookup_insert_eq]
      grind

theorem mem_leaves_removeLeaf {other : H} {place : Nat} :
    other ∈ leaves (removeLeaf storage number hash).1 place ↔
      other ∈ leaves storage place ∧ ¬ (place = number ∧ other = hash) := by
  rw [leaves_removeLeaf]
  split
  · rename_i same
    subst same
    simp
  · rename_i differ
    simp [differ]

theorem nodup_leaves_removeLeaf (nodup : ∀ place, (leaves storage place).Nodup) (place : Nat) :
    (leaves (removeLeaf storage number hash).1 place).Nodup := by
  rw [leaves_removeLeaf]
  split
  · exact (nodup number).filter _
  · exact nodup place

theorem removeLeaf_found :
    (removeLeaf storage number hash).2 = decide (hash ∈ leaves storage number) := by
  unfold removeLeaf leaves
  cases storage.lookup number with
  | none => simp
  | some list => rfl

namespace LeafSet

variable (self : LeafSet H)

/-- `import` -/
def importLeaf (hash : H) (number : Nat) (parentHash : H) :
    LeafSet H × Option (ImportDisplaced H) :=
  let (storage, wasDisplaced) :=
    if number = 0 then (self.storage, false) else removeLeaf self.storage (number - 1) parentHash
  ({ storage := insertLeaf storage number hash
     pendingAdded := self.pendingAdded ++ [(hash, number)]
     pendingRemoved := self.pendingRemoved ++ if wasDisplaced then [parentHash] else [] },
    if wasDisplaced then some ⟨hash, parentHash, number - 1⟩ else none)

/-- `finalize_height`, with the displaced leaves. -/
def finalizeHeight (number : Nat) : LeafSet H × HashMap Nat (List H) :=
  if number = 0 then (self, ∅) else
    let belowBoundary := self.storage.retainKeys (· ≤ number - 1)
    ({ self with
        storage := self.storage.retainKeys (number - 1 < ·)
        pendingRemoved := self.pendingRemoved ++ (items belowBoundary).map Prod.fst },
      belowBoundary)

/-- One item of the loop of `revert`; the fault is its assertion. -/
def revertItem (bestNumber : Nat) (state : HashMap Nat (List H) × List H) (item : H × Nat) :
    Except Unit (HashMap Nat (List H) × List H) :=
  if bestNumber < item.2 then
    match removeLeaf state.1 item.2 item.1 with
    | (storage, true) => .ok (storage, state.2 ++ [item.1])
    | (_, false) => .error ()
  else .ok state

/-- `revert` -/
def revert (bestHash : H) (bestNumber : Nat) : Except Unit (LeafSet H) := do
  let (storage, pendingRemoved) ← (items self.storage).foldlM (revertItem bestNumber)
    (self.storage, self.pendingRemoved)
  if bestHash ∈ leaves storage bestNumber then .ok { self with storage, pendingRemoved }
  else .ok {
    storage := insertLeaf storage bestNumber bestHash
    pendingAdded := self.pendingAdded ++ [(bestHash, bestNumber)]
    pendingRemoved }

/-- `prepare_transaction`, with the transaction applied to the database. -/
def prepareTransaction (db : HashMap H Nat) : LeafSet H × HashMap H Nat :=
  ({ storage := self.storage }, (db.insertAll self.pendingAdded).eraseAll self.pendingRemoved)

/-- `read_from_db` -/
def readFromDb {H : Type} [LinearOrder H] (db : HashMap H Nat) : LeafSet H :=
  { storage := db.entries.foldl (fun storage entry => insertLeaf storage entry.2 entry.1) ∅ }

/-- `undo_import` -/
def undoImport (displaced : ImportDisplaced H) : LeafSet H :=
  let newNumber := displaced.number + 1
  { self with
    storage := insertLeaf (removeLeaf self.storage newNumber displaced.newHash).1 newNumber
      displaced.hash }

/-- `undo_finalization` -/
def undoFinalization (displaced : HashMap Nat (List H)) : LeafSet H :=
  { self with storage := displaced ∪ self.storage }

end LeafSet

/-! ## Memory and disk -/

/-- The set in memory and its database, with the hashes that calls brought. -/
structure Node (H : Type) where
  set : LeafSet H := {}
  db : HashMap H Nat := ∅
  seen : List H := []

inductive Op (H : Type) where
  | importLeaf (hash : H) (number : Nat) (parentHash : H)
  | finalizeHeight (number : Nat)
  | revert (bestHash : H) (bestNumber : Nat)
  | prepareTransaction

namespace Node

variable (node : Node H)

/-- One call; a transaction is applied to the database at once. -/
def step : Op H → Except Unit (Node H)
  | .importLeaf hash number parentHash => .ok { node with
      set := (node.set.importLeaf hash number parentHash).1, seen := hash :: node.seen }
  | .finalizeHeight number => .ok { node with set := (node.set.finalizeHeight number).1 }
  | .revert bestHash bestNumber => (node.set.revert bestHash bestNumber).map fun set =>
      { node with set, seen := bestHash :: node.seen }
  | .prepareTransaction => .ok { node with
      set := (node.set.prepareTransaction node.db).1
      db := (node.set.prepareTransaction node.db).2 }

/-- Imported hashes are new, and the best block of a revert is a leaf already or was neither
removed since the last transaction nor is a leaf at another number. -/
def Allowed : Op H → Prop
  | .importLeaf hash _ _ => hash ∉ node.seen
  | .revert bestHash bestNumber => bestHash ∈ leaves node.set.storage bestNumber ∨
      bestHash ∉ node.set.pendingRemoved ∧ ∀ item ∈ items node.set.storage, item.1 ≠ bestHash
  | _ => True

instance : ∀ op, Decidable (node.Allowed op)
  | .importLeaf .. => inferInstanceAs (Decidable (_ ∉ _))
  | .revert .. => inferInstanceAs (Decidable (_ ∨ _ ∧ _))
  | .finalizeHeight _ | .prepareTransaction => inferInstanceAs (Decidable True)

/-- The next transaction writes the leaves of the set. -/
structure Tracked : Prop where
  written : ∀ hash number, (node.set.prepareTransaction node.db).2.lookup hash = some number ↔
    hash ∈ leaves node.set.storage number
  nodup : ∀ number, (leaves node.set.storage number).Nodup
  removed : ∀ hash ∈ node.set.pendingRemoved, hash ∈ node.seen
  known : ∀ number, ∀ hash ∈ leaves node.set.storage number, hash ∈ node.seen

/-- The loop of `revert` drops the listed leaves above the number. -/
theorem revert_loop (bestNumber : Nat) {list : List (H × Nat)} (nodup : list.Nodup)
    (removed : List H) (there : ∀ item ∈ list, item.1 ∈ leaves storage item.2) :
    ∃ after, list.foldlM (LeafSet.revertItem bestNumber) (storage, removed) =
        .ok (after, removed ++ (list.filter (bestNumber < ·.2)).map Prod.fst) ∧
      (∀ number, (leaves after number).Sublist (leaves storage number)) ∧
      ∀ number hash, hash ∈ leaves after number ↔
        hash ∈ leaves storage number ∧ ¬ (bestNumber < number ∧ (hash, number) ∈ list) := by
  induction list generalizing storage removed with
  | nil => exact ⟨storage, by simp [pure, Except.pure], by simp, by simp⟩
  | cons item rest ih =>
    obtain ⟨once, nodup⟩ := nodup_cons.mp nodup
    have later := fun other mem => there other (mem_cons_of_mem _ mem)
    rw [foldlM_cons, LeafSet.revertItem]
    split
    · rename_i above
      have found : removeLeaf storage item.2 item.1 =
          ((removeLeaf storage item.2 item.1).1, true) :=
        Prod.ext rfl (removeLeaf_found.trans (decide_eq_true (there item mem_cons_self)))
      rw [found]
      obtain ⟨after, looped, fewer, left⟩ := @ih (removeLeaf storage item.2 item.1).1 nodup
        (removed ++ [item.1]) (fun other mem => by
          have still := later other mem
          rw [leaves_removeLeaf]
          grind)
      refine ⟨after, ?_, fun number => (fewer number).trans ?_, fun number hash => ?_⟩
      · rw [ok_bind, looped]
        simp [above]
      · rw [leaves_removeLeaf]
        split
        · rename_i same
          exact same ▸ filter_sublist
        · exact .refl _
      · rw [left, leaves_removeLeaf]
        grind
    · rename_i below
      obtain ⟨after, looped, fewer, left⟩ := @ih storage nodup removed later
      refine ⟨after, ?_, fewer, fun number hash => ?_⟩
      · rw [ok_bind, looped]
        simp [below]
      · rw [left]
        grind

namespace Tracked

variable {node : Node H} (tracked : node.Tracked)

include tracked

theorem unique {other : Nat} (first : hash ∈ leaves node.set.storage number)
    (second : hash ∈ leaves node.set.storage other) : number = other :=
  Option.some.inj (((tracked.written hash number).mpr first).symm.trans
    ((tracked.written hash other).mpr second))

theorem drop {dropped : List H} (left : ∀ number hash, hash ∈ leaves after number ↔
      hash ∈ leaves node.set.storage number ∧ hash ∉ dropped)
    (nodup : ∀ number, (leaves after number).Nodup) (known : ∀ hash ∈ dropped, hash ∈ node.seen) :
    Tracked { node with set := { node.set with
      storage := after, pendingRemoved := node.set.pendingRemoved ++ dropped } } where
  written hash number := by
    have before := tracked.written hash number
    rw [left, ← before]
    simp only [LeafSet.prepareTransaction, lookup_eraseAll, mem_append]
    grind
  nodup := nodup
  removed hash mem := (mem_append.mp mem).elim (tracked.removed hash) (known hash)
  known number hash mem := tracked.known number hash ((left number hash).mp mem).1

/-- A hash that is no leaf and was not removed since the last transaction becomes a leaf. -/
theorem add (number : Nat) (kept : hash ∉ node.set.pendingRemoved)
    (absent : ∀ other, hash ∉ leaves node.set.storage other) :
    Tracked { node with
      set := { node.set with
        storage := insertLeaf node.set.storage number hash
        pendingAdded := node.set.pendingAdded ++ [(hash, number)] }
      seen := hash :: node.seen } where
  written other place := by
    have before := tracked.written other place
    simp only [LeafSet.prepareTransaction, lookup_eraseAll, insertAll,
      foldl_append, foldl_cons, foldl_nil, lookup_insert_eq,
      leaves_insertLeaf, mem_append] at before ⊢
    grind
  nodup other := by
    have before := tracked.nodup other
    have fresh := absent other
    rw [leaves_insertLeaf]
    grind
  removed other mem := mem_cons_of_mem _ (tracked.removed other mem)
  known place other mem := by
    have before := tracked.known place other
    rw [leaves_insertLeaf] at mem
    grind

theorem finalizeHeight (height : Nat) :
    Tracked { node with set := (node.set.finalizeHeight height).1 } := by
  unfold LeafSet.finalizeHeight
  split
  · exact tracked
  · refine tracked.drop (fun number hash => ?_) (fun number => ?_) fun hash mem => ?_
    · have unique := @tracked.unique
      rw [leaves_retainKeys]
      simp only [mem_map, Prod.exists, mem_items, leaves_retainKeys]
      grind
    · rw [leaves_retainKeys]
      split
      · exact tracked.nodup number
      · exact nodup_nil
    · have known := tracked.known
      simp only [mem_map, Prod.exists, mem_items, leaves_retainKeys] at mem
      grind

theorem removeLeaf (number : Nat) (parentHash : H) :
    Tracked { node with set := { node.set with
      storage := (Client.removeLeaf node.set.storage number parentHash).1
      pendingRemoved := node.set.pendingRemoved ++
        if (Client.removeLeaf node.set.storage number parentHash).2 then [parentHash]
        else [] } } := by
  have nodup := fun place =>
    @nodup_leaves_removeLeaf H node.set.storage number parentHash _ tracked.nodup place
  rw [removeLeaf_found]
  by_cases there : parentHash ∈ leaves node.set.storage number
  · rw [decide_eq_true there, if_pos rfl]
    refine tracked.drop (fun place other => ?_) nodup fun other mem => ?_
    · rw [mem_leaves_removeLeaf, List.mem_singleton]
      -- the leaf is at this number only
      exact and_congr_right fun mem => not_congr
        ⟨And.right, fun same => ⟨tracked.unique (same ▸ mem) there, same⟩⟩
    · rw [List.mem_singleton.mp mem]
      exact tracked.known number parentHash there
  · rw [decide_eq_false there, if_neg Bool.false_ne_true]
    refine tracked.drop (fun place other => ?_) nodup fun other mem => absurd mem not_mem_nil
    rw [mem_leaves_removeLeaf]
    refine and_congr_right fun mem => iff_of_true ?_ not_mem_nil
    rintro ⟨rfl, rfl⟩
    exact there mem

theorem importLeaf (parentHash : H) (fresh : hash ∉ node.seen) :
    Tracked { node with
      set := (node.set.importLeaf hash number parentHash).1, seen := hash :: node.seen } := by
  by_cases zero : number = 0
  · have added := tracked.add number (fun mem => fresh (tracked.removed hash mem))
      fun place mem => fresh (tracked.known place hash mem)
    simpa [LeafSet.importLeaf, zero] using added
  · have parted := tracked.removeLeaf (number - 1) parentHash
    rw [LeafSet.importLeaf, if_neg zero]
    exact parted.add number (fun mem => fresh (parted.removed hash mem))
      fun place mem => fresh (parted.known place hash mem)

theorem nodup_items : (items node.set.storage).Nodup := by
  have keys := HashMap.nodup_entries node.set.storage
  rw [items, nodup_flatMap]
  constructor
  · rintro ⟨number, hashes⟩ mem
    have stored := (HashMap.mem_entries _ _ _).mp (mem_reverse.mp mem)
    have nodup := tracked.nodup number
    rw [leaves, stored] at nodup
    exact nodup.map fun _ _ same => (Prod.mk.inj same).1
  · rw [pairwise_reverse]
    exact (pairwise_map.mp keys).imp fun differ => by
      simp [Function.onFun, disjoint_left, differ]

theorem revert {bestHash : H} {bestNumber : Nat}
    (allowed : node.Allowed (.revert bestHash bestNumber)) :
    ∃ set, node.set.revert bestHash bestNumber = .ok set ∧
      Tracked { node with set, seen := bestHash :: node.seen } := by
  obtain ⟨after, looped, fewer, left⟩ := revert_loop bestNumber tracked.nodup_items
    node.set.pendingRemoved fun item mem => mem_items.mp mem
  have gone : ∀ hash, hash ∈ ((items node.set.storage).filter (bestNumber < ·.2)).map Prod.fst ↔
      ∃ number, hash ∈ leaves node.set.storage number ∧ bestNumber < number := by
    simp [mem_items]
  have stays : ∀ number hash, hash ∈ leaves after number ↔
      hash ∈ leaves node.set.storage number ∧ ¬ bestNumber < number := by
    intro number hash
    rw [left, mem_items]
    exact and_congr_right fun mem => not_congr (and_iff_left mem)
  have dropped := tracked.drop
    (fun number hash => by
      rw [stays, gone]
      exact and_congr_right fun mem => not_congr
        ⟨fun above => ⟨number, mem, above⟩,
          fun ⟨_, there, above⟩ => tracked.unique mem there ▸ above⟩)
    (fun number => (tracked.nodup number).sublist (fewer number))
    (fun hash mem => by
      obtain ⟨number, there, -⟩ := (gone hash).mp mem
      exact tracked.known number hash there)
  simp only [LeafSet.revert, looped, ok_bind]
  split
  · refine ⟨_, rfl, { dropped with removed := ?_, known := ?_ }⟩
    · exact fun hash mem => mem_cons_of_mem _ (dropped.removed hash mem)
    · exact fun number hash mem => mem_cons_of_mem _ (dropped.known number hash mem)
  · rename_i absent
    have missing : bestHash ∉ leaves node.set.storage bestNumber := fun there =>
      absent ((stays bestNumber bestHash).mpr ⟨there, lt_irrefl _⟩)
    obtain ⟨kept, unlisted⟩ := allowed.resolve_left missing
    have nowhere : ∀ number, bestHash ∉ leaves node.set.storage number := fun number there =>
      unlisted _ (mem_items.mpr there) rfl
    refine ⟨_, rfl, dropped.add bestNumber (fun mem => ?_) fun other there => ?_⟩
    · rcases mem_append.mp mem with old | new
      · exact kept old
      · obtain ⟨number, there, -⟩ := (gone bestHash).mp new
        exact nowhere number there
    · exact nowhere other ((stays other bestHash).mp there).1

/-- **Every allowed call returns and keeps the set tracked.** -/
theorem step {op : Op H} (allowed : node.Allowed op) :
    ∃ next, node.step op = .ok next ∧ next.Tracked := by
  cases op with
  | importLeaf hash number parentHash => exact ⟨_, rfl, tracked.importLeaf parentHash allowed⟩
  | finalizeHeight number => exact ⟨_, rfl, tracked.finalizeHeight number⟩
  | revert bestHash bestNumber =>
    obtain ⟨set, ran, kept⟩ := tracked.revert allowed
    exact ⟨_, by rw [Node.step, ran]; rfl, kept⟩
  | prepareTransaction =>
    exact ⟨_, rfl, { tracked with removed := fun _ mem => nomatch mem }⟩

end Tracked

end Node

theorem mem_leaves_readFromDb {H : Type} [LinearOrder H] {db : HashMap H Nat} {hash : H} :
    hash ∈ leaves (LeafSet.readFromDb db).storage number ↔ db.lookup hash = some number := by
  have loop : ∀ (entries : List (H × Nat)) storage,
      hash ∈ leaves (entries.foldl (fun storage entry => insertLeaf storage entry.2 entry.1)
        storage) number ↔ (hash, number) ∈ entries ∨ hash ∈ leaves storage number := by
    intro entries
    induction entries with
    | nil => simp
    | cons first rest ih =>
      intro storage
      rw [foldl_cons, ih, leaves_insertLeaf]
      grind
  rw [← mem_entries, LeafSet.readFromDb, loop]
  simp [leaves]

/-- **The database has the leaves of the set**, after a transaction in any state of a run whose
imports are fresh and whose reverts bring no removed hash back; and no assertion fails. -/
theorem leaves_on_disk {H : Type} [LinearOrder H] {node : Node H}
    (reached : Reachable Node.step Node.Allowed {} node) :
    (∀ op, node.Allowed op → ∃ next, node.step op = .ok next) ∧
      ∀ number hash, hash ∈ leaves (LeafSet.readFromDb
        (node.set.prepareTransaction node.db).2).storage number ↔
          hash ∈ leaves node.set.storage number := by
  have tracked : node.Tracked := by
    refine reached.invariant ⟨by simp [LeafSet.prepareTransaction, insertAll,
      eraseAll, leaves], by simp [leaves], by simp, by simp [leaves]⟩ ?_
    intro node op next tracked allowed ran
    obtain ⟨last, same, kept⟩ := tracked.step allowed
    rw [ran] at same
    exact Except.ok.inj same ▸ kept
  refine ⟨fun op allowed => ?_, fun number hash => ?_⟩
  · obtain ⟨next, ran, -⟩ := tracked.step allowed
    exact ⟨next, ran⟩
  · rw [mem_leaves_readFromDb, tracked.written]

/-- A run with a revert to a leaf. -/
theorem leaves_on_disk_reverted : ∃ node : Node Nat,
    Reachable Node.step Node.Allowed {} node ∧ leaves node.set.storage 1 = [11] ∧
      11 ∈ leaves (LeafSet.readFromDb (node.set.prepareTransaction node.db).2).storage 1 := by
  refine exists_reachable_of_found [.importLeaf 10 0 0, .prepareTransaction, .importLeaf 11 1 10,
    .finalizeHeight 1, .revert 11 1] (fun node => leaves node.set.storage 1 = [11])
    (by decide +kernel) fun node reached one => ?_
  exact ⟨one, ((leaves_on_disk reached).2 1 11).mpr (by rw [one]; decide)⟩

/-- A block whose child is reverted before the next transaction is lost on disk. -/
theorem leaf_lost_on_disk :
    ((run Node.step (fun _ _ => True) ({} : Node Nat) [.importLeaf 10 0 0, .prepareTransaction,
      .importLeaf 11 1 10, .revert 10 0]).any fun node =>
        leaves node.set.storage 0 = [10] ∧ (LeafSet.readFromDb
          (node.set.prepareTransaction node.db).2).storage = ∅) = true := by
  decide +kernel

/-! ## Undo -/

namespace LeafSet

/-- A change that can be undone. -/
inductive Change (H : Type) where
  | importLeaf (hash : H) (number : Nat) (parentHash : H)
  | finalizeHeight (number : Nat)

/-- The set after the changes were made and undone in reverse order, each by what it returned;
nothing if an import displaced no leaf. -/
def undoing (self : LeafSet H) : List (Change H) → Option (LeafSet H)
  | [] => some self
  | .importLeaf hash number parentHash :: rest =>
    match self.importLeaf hash number parentHash with
    | (_, none) => none
    | (next, some displaced) => (next.undoing rest).map (·.undoImport displaced)
  | .finalizeHeight number :: rest =>
    match self.finalizeHeight number with
    | (next, displaced) => (next.undoing rest).map (·.undoFinalization displaced)

/-- The set when the `Undo` is dropped, which clears the logs. -/
def undone (self : LeafSet H) (changes : List (Change H)) : Option (LeafSet H) :=
  (self.undoing changes).map fun set => { storage := set.storage }

variable {self next : LeafSet H} {parentHash : H}

theorem importLeaf_some {displaced : ImportDisplaced H}
    (imported : self.importLeaf hash number parentHash = (next, some displaced)) :
    displaced = ⟨hash, parentHash, number - 1⟩ ∧ number ≠ 0 ∧
      parentHash ∈ leaves self.storage (number - 1) ∧
      next.storage =
        insertLeaf (removeLeaf self.storage (number - 1) parentHash).1 number hash := by
  by_cases zero : number = 0
  · simp [importLeaf, zero] at imported
  · simp only [importLeaf, if_neg zero, removeLeaf_found, Prod.mk.injEq] at imported
    obtain ⟨rfl, displaces⟩ := imported
    split at displaces
    · rename_i there
      exact ⟨(Option.some.inj displaces).symm, zero, of_decide_eq_true there, rfl⟩
    · cases displaces

omit [DecidableEq H] in
theorem leaves_undoFinalization {displaced : HashMap Nat (List H)}
    (finalized : self.finalizeHeight number = (next, displaced)) (after : LeafSet H) (level : Nat) :
    leaves next.storage level = [] ∧
        leaves (after.undoFinalization displaced).storage level = leaves self.storage level ∨
      leaves next.storage level = leaves self.storage level ∧
        leaves (after.undoFinalization displaced).storage level = leaves after.storage level := by
  unfold finalizeHeight at finalized
  split at finalized
  · cases finalized
    exact .inr ⟨rfl, by simp [undoFinalization]⟩
  · cases finalized
    by_cases taken : level ∈ self.storage.retainKeys (· ≤ number - 1)
    · have below : level ≤ number - 1 := by
        rw [mem_iff_lookup_ne, lookup_retainKeys] at taken
        grind
      refine .inl ⟨?_, ?_⟩
      · rw [leaves_retainKeys, if_neg (by simpa using below)]
      · rw [undoFinalization, leaves, lookup_union_left taken, lookup_retainKeys,
          if_pos (by simpa using below)]
        rfl
    · refine .inr ⟨?_, ?_⟩
      · rw [mem_iff_lookup_ne, not_not, lookup_retainKeys] at taken
        rw [leaves_retainKeys, leaves]
        grind
      · rw [undoFinalization, leaves, lookup_union_right taken]
        rfl

/-- Changes whose imports are above a level take leaves from it and put none there, and an import
right above it displaces a leaf of it for good. -/
theorem undoing_lowest {changes : List (Change H)} {after : LeafSet H} {level : Nat}
    (ran : self.undoing changes = some after)
    (above : ∀ hash number parentHash, .importLeaf hash number parentHash ∈ changes →
      number ≠ 0 → level < number) :
    (∀ hash ∈ leaves after.storage level, hash ∈ leaves self.storage level) ∧
      ∀ hash number parentHash, .importLeaf hash number parentHash ∈ changes →
        number ≠ 0 ∧ (number = level + 1 →
          parentHash ∈ leaves self.storage level ∧ parentHash ∉ leaves after.storage level) := by
  induction changes generalizing self after with
  | nil =>
    cases ran
    exact ⟨fun _ mem => mem, fun _ _ _ mem => nomatch mem⟩
  | cons change rest ih =>
    have later := fun hash number parentHash mem =>
      above hash number parentHash (mem_cons_of_mem _ mem)
    cases change with
    | importLeaf hash number parentHash =>
      unfold undoing at ran
      split at ran
      · cases ran
      · rename_i next displaced imported
        obtain ⟨last, undone, rfl⟩ := Option.map_eq_some_iff.mp ran
        obtain ⟨rfl, pos, there, stored⟩ := importLeaf_some imported
        have higher := above hash number parentHash mem_cons_self pos
        obtain ⟨fewer, lost⟩ := ih undone later
        simp only [stored, leaves_insertLeaf, leaves_removeLeaf] at fewer lost
        simp only [undoImport, leaves_insertLeaf, leaves_removeLeaf]
        grind
    | finalizeHeight number =>
      unfold undoing at ran
      split at ran
      rename_i next displaced finalized
      obtain ⟨last, undone, rfl⟩ := Option.map_eq_some_iff.mp ran
      have levels := ih undone later
      rcases leaves_undoFinalization finalized last level with ⟨taken, same⟩ | ⟨same, kept⟩
      · rw [taken] at levels
        rw [same]
        grind
      · rw [same] at levels
        rw [kept]
        grind

/-- **A sequence of changes is undone exactly when it imports nothing.** -/
theorem undone_iff (self : LeafSet H) (changes : List (Change H)) {after : LeafSet H}
    (returned : self.undone changes = some after) :
    ((∀ number hash, hash ∈ leaves after.storage number ↔ hash ∈ leaves self.storage number) ∧
        after.pendingAdded = [] ∧ after.pendingRemoved = []) ↔
      ∀ hash number parentHash, .importLeaf hash number parentHash ∉ changes := by
  obtain ⟨last, undoing, rfl⟩ := Option.map_eq_some_iff.mp returned
  constructor
  · rintro ⟨same, -⟩ hash number parentHash mem
    have above : ∀ level hash number parentHash, .importLeaf hash number parentHash ∈ changes →
        number ≠ 0 → level < number := by
      intro level
      induction level with
      | zero => exact fun _ _ _ _ => Nat.pos_of_ne_zero
      | succ level higher =>
        intro hash number parentHash mem pos
        refine lt_of_le_of_ne (higher hash number parentHash mem pos) fun equal => ?_
        obtain ⟨there, lost⟩ :=
          ((undoing_lowest undoing higher).2 hash number parentHash mem).2 equal.symm
        exact lost ((same level parentHash).mpr there)
    have pos := ((undoing_lowest undoing (above 0)).2 hash number parentHash mem).1
    exact lt_irrefl number (above number hash number parentHash mem pos)
  · intro none
    refine ⟨?_, rfl, rfl⟩
    clear returned
    induction changes generalizing self last with
    | nil =>
      cases undoing
      exact fun _ _ => Iff.rfl
    | cons change rest ih =>
      cases change with
      | importLeaf hash number parentHash =>
        exact absurd mem_cons_self (none hash number parentHash)
      | finalizeHeight number =>
        unfold LeafSet.undoing at undoing
        split at undoing
        rename_i next displaced finalized
        obtain ⟨before, inner, rfl⟩ := Option.map_eq_some_iff.mp undoing
        have restored := ih next before inner fun hash number parentHash mem =>
          none hash number parentHash (mem_cons_of_mem _ mem)
        intro level hash
        rcases leaves_undoFinalization finalized before level with ⟨-, same⟩ | ⟨same, kept⟩
        · rw [same]
        · rw [kept, restored, same]

/-- A finalization is undone. -/
theorem undone_iff_finalized : ∃ after : LeafSet Nat,
    ({ storage := insertLeaf ∅ 0 10 } : LeafSet Nat).undone [.finalizeHeight 1] = some after ∧
      10 ∈ leaves after.storage 0 := by
  refine ⟨_, rfl, ?_⟩
  have restored :=
    (undone_iff { storage := insertLeaf ∅ 0 10 } [.finalizeHeight 1] rfl).mpr (by simp)
  exact (restored.1 0 10).mpr (by decide)

/-- An import whose undoing leaves the parent of the block at the number of the block. -/
theorem undone_misplaced :
    (((({} : LeafSet Nat).importLeaf 10 0 0).1.prepareTransaction ∅).1.undone
      [.importLeaf 11 1 10]).any (fun after =>
        leaves after.storage 0 = [] ∧ leaves after.storage 1 = [10]) = true := by
  decide +kernel

end LeafSet

end Brace.Client
