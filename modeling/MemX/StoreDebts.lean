import MemX.LockView
import MemX.StoreLocks
import MemX.StoreSweep

namespace MemX.StoreDebts

open DecimalText Clock StoreState StoreRules StoreCalls LockProgram StoreLocks LockView StoreSweep
open LockProgram.Prog (acquire release)

variable {c : Config} {α β : Type}

/-- What a thread knows of the maps and owes to the heap: the entry it has seen
under a key, the shards it has cleared, the elements that have to be on the
heap as long as their entries are in the maps, and whether it is a `Flush`
that has cleared the maps and not yet the heap. -/
structure View (c : Config) where
  seen : Option (Bytes × Option Entry)
  cleared : List (Fin c.shardCount)
  debts : List ExpEntry
  gap : Bool

def View.knows (v : View c) (key : Bytes) (deadline : Int) : Bool :=
  v.seen.any fun s => s.1 == key && s.2.map Entry.expireAt == some deadline

/-- A map is read under its lock and changed under its writer's lock, keys are
in their own shards, the counter is stored when every shard is cleared, and
the next access after that is the one that drops the heap. -/
def allowed (v : View c) (held : List (Lock c × Mode)) : Access c → Prop
  | .lookup i key => v.gap = false ∧ i = shardIndex c key ∧ ∃ m, (.shard i, m) ∈ held
  | .insert i key _ => v.gap = false ∧ i = shardIndex c key ∧ (.shard i, .write) ∈ held
  | .erase i key => v.gap = false ∧ i = shardIndex c key ∧ (.shard i, .write) ∈ held
  | .clear i => v.gap = false ∧ (.shard i, .write) ∈ held
  | .storeCount _ => v.gap = false ∧ ∀ i, i ∈ v.cleared
  | .dropHeap => v.gap = true
  | _ => v.gap = false

/-- A deadline that is stored is owed to the heap unless it was there before.
What is popped from the heap is owed until its key is seen without it. -/
def after (v : View c) : (a : Access c) → a.Answer → View c
  | .lookup _ key, e =>
    { v with seen := some (key, e)
             debts := v.debts.filter fun d => d.key ≠ key ∨ Option.map Entry.expireAt e = some d.deadline }
  | .insert _ key e, _ =>
    { v with seen := none, cleared := []
             debts := if e.expireAt = 0 ∨ v.knows key e.expireAt then v.debts else ⟨e.expireAt, key⟩ :: v.debts }
  | .erase _ key, _ => { v with seen := none, cleared := [], debts := v.debts.filter fun d => d.key ≠ key }
  | .clear i, _ => { v with seen := none, cleared := i :: v.cleared }
  | .storeCount _, _ => { v with seen := none, cleared := [], gap := true }
  | .push d, _ => { v with debts := v.debts.filter fun x => x ≠ d }
  | .popDue _, ds => { v with debts := List.append ds v.debts }
  | .dropHeap, _ => { v with gap := false }
  | _, _ => v

def rules : Rules (Lock c) (Access.Answer (c := c)) (View c) where
  allowed := allowed
  next := after
  release v := { v with seen := none, cleared := [] }

def Settled (v : View c) : Prop := v.debts = [] ∧ v.gap = false

def Inner (held : List (Lock c × Mode)) (p : Op c α) : Prop :=
  ∀ v, Settled v → Follows rules (fun v' held' _ => Settled v' ∧ held' = held) v held p

def Clean (p : Op c α) : Prop := ∀ v held, Settled v → Follows rules (fun v' _ _ => Settled v') v held p

section Inner

variable {held : List (Lock c × Mode)} {key : Bytes}

theorem inner_pure (a : α) : Inner held (pure a : Op c α) := fun _ hv => ⟨hv, rfl⟩

theorem inner_bind {p : Op c α} {f : α → Op c β} (hp : Inner held p) (hf : ∀ a, Inner held (f a)) :
    Inner held (p >>= f) :=
  fun v hv => follows_bind (hp v hv) fun v' held' a h => by
    obtain ⟨hv', rfl⟩ := h
    exact hf a v' hv'

theorem inner_addCount (n : Int) : Inner held (effect (.addCount n) : Op c Unit) :=
  fun _ hv => ⟨hv.2, fun _ => ⟨hv, rfl⟩⟩

theorem inner_lookup {m : Mode} (hi : (.shard (shardIndex c key), m) ∈ held) :
    Inner held (lookup (shardIndex c key) key : Op c _) :=
  fun v hv => ⟨⟨hv.2, rfl, m, hi⟩, fun _ => ⟨⟨by simp [rules, after, hv.1], hv.2⟩, rfl⟩⟩

theorem inner_purge (hi : (.shard (shardIndex c key), .write) ∈ held) :
    Inner held (purge (shardIndex c key) key : Op c Unit) := by
  refine inner_bind (fun v hv => ⟨⟨hv.2, rfl, hi⟩, fun _ => ⟨⟨?_, hv.2⟩, rfl⟩⟩) fun _ => inner_addCount (-1)
  simp [rules, after, hv.1]

theorem follows_track {v : View c} {w : Write} (hgap : v.gap = false)
    (hdebts : ∀ d ∈ v.debts, w.track = true ∧ d = ⟨w.entry.expireAt, key⟩) :
    Follows rules (fun v' held' _ => Settled v' ∧ held' = held) v held (track key w : Op c Unit) := by
  unfold track
  split_ifs with hw
  · refine ⟨hgap, fun _ => ⟨⟨?_, hgap⟩, List.erase_cons_head ..⟩⟩
    exact List.filter_eq_nil_iff.mpr fun d hd => by simp [(hdebts d hd).2]
  · have hnil : v.debts = [] := List.eq_nil_iff_forall_not_mem.mpr fun d hd => hw (hdebts d hd).1
    exact ⟨⟨hnil, hgap⟩, rfl⟩

theorem after_insert_debts {v : View c} (hv : Settled v) {w : Write}
    (hw : w.entry.expireAt = 0 ∨ v.knows key w.entry.expireAt = true ∨ w.track = true) (r : Unit) :
    ∀ d ∈ (after v (.insert (shardIndex c key) key w.entry) r).debts,
      w.track = true ∧ d = ⟨w.entry.expireAt, key⟩ := by
  intro d hd
  simp only [after, hv.1] at hd
  split_ifs at hd with hfree
  · cases hd
  · rw [not_or] at hfree
    exact ⟨(hw.resolve_left hfree.1).resolve_left hfree.2, List.mem_singleton.mp hd⟩

theorem inner_create (hi : (.shard (shardIndex c key), .write) ∈ held) {o : Option Write}
    (ho : ∀ w, o = some w → w.entry.expireAt ≠ 0 → w.track = true) :
    Inner held (create (shardIndex c key) key o : Op c Unit) := by
  cases o with
  | none => exact inner_pure ()
  | some w =>
    intro v hv
    have hw : w.entry.expireAt = 0 ∨ v.knows key w.entry.expireAt = true ∨ w.track = true := by
      by_cases h0 : w.entry.expireAt = 0
      · exact .inl h0
      · exact .inr (.inr (ho w rfl h0))
    exact ⟨⟨hv.2, rfl, hi⟩, fun r => ⟨hv.2, fun _ => follows_track hv.2 (after_insert_debts hv hw r)⟩⟩

theorem follows_apply (hi : (.shard (shardIndex c key), .write) ∈ held) {v : View c} (hv : Settled v) {eff : Effect}
    (heff : ∀ w, eff = .put w → w.entry.expireAt = 0 ∨ v.knows key w.entry.expireAt = true ∨ w.track = true) :
    Follows rules (fun v' held' _ => Settled v' ∧ held' = held) v held
      (apply (shardIndex c key) key eff : Op c Unit) := by
  cases eff with
  | keep => exact inner_pure () v hv
  | purge => exact inner_purge hi v hv
  | put w => exact ⟨⟨hv.2, rfl, hi⟩, fun r => follows_track hv.2 (after_insert_debts hv (heff w rfl) r)⟩

end Inner

section Tracks

variable {op : KeyOp α}

theorem track_of_absent (hop : Tracks op) {t : Instant} {w : Write} (hw : (op.absent t).2 = some w)
    (h0 : w.entry.expireAt ≠ 0) : w.track = true := by
  have hnext : StoreLookup.next op t none = some w.entry := by simp [StoreLookup.next, hw]
  obtain hpush | hold := hop t none w.entry hnext h0
  · rw [StoreLookup.pushed, hw, Option.bind_some, StoreLookup.Write.pushes] at hpush
    exact (Option.ite_none_right_eq_some.mp hpush).1
  · cases hold

theorem track_of_present (hop : Tracks op) {t : Instant} {e : Entry} {w : Write} (hw : (op.present t e).2 = .put w) :
    w.entry.expireAt = 0 ∨ e.expireAt = w.entry.expireAt ∨ w.track = true := by
  by_cases h0 : w.entry.expireAt = 0
  · exact .inl h0
  · have hnext : StoreLookup.next op t (some e) = some w.entry := by
      simp [StoreLookup.next, hw, StoreLookup.Effect.entry]
    obtain hpush | hold := hop t (some e) w.entry hnext h0
    · simp only [StoreLookup.pushed, hw, StoreLookup.Write.pushes] at hpush
      exact .inr (.inr (Option.ite_none_right_eq_some.mp hpush).1)
    · exact .inr (.inl (Option.some.inj hold))

end Tracks

section Clean

variable {key : Bytes}

theorem clean_pure (a : α) : Clean (pure a : Op c α) := fun _ _ hv => hv

theorem clean_bind {p : Op c α} {f : α → Op c β} (hp : Clean p) (hf : ∀ a, Clean (f a)) : Clean (p >>= f) :=
  fun v held hv => follows_bind (hp v held hv) fun v' held' a hv' => hf a v' held' hv'

theorem clean_map (f : α → β) {p : Op c α} (hp : Clean p) : Clean (f <$> p) := clean_bind hp fun a => clean_pure (f a)

theorem follows_keyBody {held : List (Lock c × Mode)} (hi : (.shard (shardIndex c key), .write) ∈ held) {op : KeyOp α}
    (hop : Tracks op) (now : Readings) {v : View c} (hv : Settled v) {e : Option Entry}
    (hseen : v.seen = some (key, e)) :
    Follows rules (fun v' held' _ => Settled v' ∧ held' = held) v held (keyBody op now (shardIndex c key) key e) := by
  have hcreate : Inner held (create (shardIndex c key) key (op.absent (now 1)).2 : Op c Unit) :=
    inner_create hi fun w hw h0 => track_of_absent hop hw h0
  cases e with
  | none => exact inner_bind hcreate (fun _ => inner_pure _) v hv
  | some e =>
    rw [keyBody]
    split_ifs
    · exact inner_bind (inner_purge hi) (fun _ => inner_bind hcreate fun _ => inner_pure _) v hv
    · have heff : ∀ w, (op.present (now 1) e).2 = .put w →
          w.entry.expireAt = 0 ∨ v.knows key w.entry.expireAt = true ∨ w.track = true := by
        intro w hw
        obtain h0 | hsame | htrack := track_of_present hop hw
        · exact .inl h0
        · exact .inr (.inl (by simp [View.knows, hseen, hsame]))
        · exact .inr (.inr htrack)
      exact follows_bind (follows_apply hi hv heff) fun v' held' _ h => h

theorem clean_onKey {op : KeyOp α} (hop : Tracks op) (now : Readings) (key : Bytes) :
    Clean (onKey op now key : Op c α) := by
  intro v held hv
  have hi : ((.shard (shardIndex c key), .write) : Lock c × Mode) ∈ (.shard (shardIndex c key), .write) :: held :=
    List.mem_cons_self
  refine ⟨⟨hv.2, rfl, .write, hi⟩, fun e => ?_⟩
  have hv' : Settled (after v (.lookup (shardIndex c key) key) e) := ⟨by simp [after, hv.1], hv.2⟩
  change Follows rules _ (after v (.lookup (shardIndex c key) key) e) _ (keyBody op now (shardIndex c key) key e >>=
    fun r => release .write (.shard (shardIndex c key)) >>= fun _ => pure r)
  exact follows_bind (follows_keyBody hi hop now hv' rfl) fun v' held' r h => h.1

theorem clean_existsKey (now : Readings) (key : Bytes) : Clean (existsKey now key : Op c Bool) :=
  fun v _ hv => ⟨⟨hv.2, rfl, .read, List.mem_cons_self⟩, fun _ => ⟨by simp [rules, after, hv.1], hv.2⟩⟩

theorem clean_readShard (i : Fin c.shardCount) : Clean (readShard i) := fun _ _ hv => ⟨hv.2, fun _ => hv⟩

theorem clean_delKeys (now : Readings) (keys : List Bytes) : Clean (delKeys now keys : Op c Nat) := by
  induction keys generalizing now with
  | nil => exact clean_pure 0
  | cons key keys ih =>
    exact clean_bind (clean_onKey tracks_del now key) fun _ => clean_bind (ih _) fun _ => clean_pure _

theorem clean_existsKeys (now : Readings) (keys : List Bytes) : Clean (existsKeys now keys : Op c Nat) := by
  induction keys generalizing now with
  | nil => exact clean_pure 0
  | cons key keys ih => exact clean_bind (clean_existsKey now key) fun _ => clean_bind (ih _) fun _ => clean_pure _

theorem clean_keysFrom (pattern : Bytes) (now : Readings) (is : List (Fin c.shardCount)) :
    Clean (keysFrom pattern now is) := by
  induction is generalizing now with
  | nil => exact clean_pure []
  | cons i is ih => exact clean_bind (clean_readShard i) fun _ => clean_bind (ih _) fun _ => clean_pure _

theorem follows_lockAll (is : List (Fin c.shardCount)) (v : View c) (held : List (Lock c × Mode)) :
    Follows rules (fun v' held' _ => v' = v ∧ (∀ x ∈ held, x ∈ held') ∧ ∀ i ∈ is, (.shard i, .write) ∈ held') v held
      (lockAll is) := by
  induction is generalizing held with
  | nil => exact ⟨rfl, fun x hx => hx, by simp⟩
  | cons i is ih =>
    refine follows_mono (ih ((.shard i, .write) :: held)) fun v' held' _ h => ?_
    obtain ⟨hv, hmono, hall⟩ := h
    exact ⟨hv, fun x hx => hmono x (List.mem_cons_of_mem _ hx),
      List.forall_mem_cons.mpr ⟨hmono _ List.mem_cons_self, hall⟩⟩

theorem follows_unlockAll (is : List (Fin c.shardCount)) (v : View c) (held : List (Lock c × Mode)) :
    Follows rules (fun v' _ _ => v'.debts = v.debts ∧ v'.gap = v.gap) v held (unlockAll is) := by
  induction is generalizing v held with
  | nil => exact ⟨rfl, rfl⟩
  | cons i is ih => exact ih (rules.release v) _

theorem inner_checkAbsent {held : List (Lock c × Mode)} (now : Readings) {pairs : List (Bytes × Bytes)}
    (hi : ∀ p ∈ pairs, (.shard (shardIndex c p.1), .write) ∈ held) :
    Inner held (checkAbsent now pairs : Op c Bool) := by
  induction pairs generalizing now with
  | nil => exact inner_pure true
  | cons p pairs ih =>
    obtain ⟨hp, hi⟩ := List.forall_mem_cons.mp hi
    refine inner_bind (inner_lookup hp) fun e => ?_
    cases e with
    | none => exact ih _ hi
    | some e =>
      simp only
      split_ifs
      · exact inner_bind (inner_purge hp) fun _ => ih _ hi
      · exact inner_pure false

theorem inner_putIf {held : List (Lock c × Mode)} {pairs : List (Bytes × Bytes)}
    (hi : ∀ p ∈ pairs, (.shard (shardIndex c p.1), .write) ∈ held) (fresh : Bool) :
    Inner held (putIf pairs fresh : Op c Unit) := by
  have hall : Inner held (putAll pairs : Op c Unit) := by
    induction pairs with
    | nil => exact inner_pure ()
    | cons p pairs ih =>
      obtain ⟨hp, hi⟩ := List.forall_mem_cons.mp hi
      refine inner_bind (fun v hv => ⟨⟨hv.2, rfl, hp⟩, fun _ => ⟨⟨?_, hv.2⟩, rfl⟩⟩) fun _ =>
        inner_bind (inner_addCount 1) fun _ => ih hi
      simp [rules, after, hv.1]
  cases fresh with
  | false => exact inner_pure ()
  | true => exact hall

theorem clean_setNXMulti (now : Readings) (pairs : List (Bytes × Bytes)) :
    Clean (setNXMulti now pairs : Op c Bool) := by
  unfold setNXMulti
  split_ifs
  · exact clean_pure true
  · intro v held hv
    refine follows_bind (follows_lockAll _ v held) fun v' held' _ h => ?_
    obtain ⟨rfl, -, hall⟩ := h
    have hi : ∀ p ∈ pairs, (.shard (shardIndex c p.1), .write) ∈ held' := fun p hp => hall _ (mem_involved hp)
    refine follows_bind (inner_checkAbsent now hi v' hv) fun v₁ held₁ fresh h => ?_
    obtain ⟨hv₁, rfl⟩ := h
    refine follows_bind (inner_putIf hi fresh v₁ hv₁) fun v₂ held₂ _ h => ?_
    refine follows_bind (follows_unlockAll _ v₂ held₂) fun v₃ held₃ _ h' => ?_
    exact ⟨h'.1.trans h.1.1, h'.2.trans h.1.2⟩

theorem follows_clearAll {held : List (Lock c × Mode)} {is : List (Fin c.shardCount)}
    (hi : ∀ i ∈ is, (.shard i, .write) ∈ held) {v : View c} (hv : Settled v) :
    Follows rules (fun v' held' _ => Settled v' ∧ held' = held ∧ ∀ i, i ∈ v.cleared ∨ i ∈ is → i ∈ v'.cleared) v held
      (clearAll is) := by
  induction is generalizing v with
  | nil => exact ⟨hv, rfl, fun i h => h.resolve_right (List.not_mem_nil)⟩
  | cons j is ih =>
    obtain ⟨hhead, htail⟩ := List.forall_mem_cons.mp hi
    refine ⟨⟨hv.2, hhead⟩, fun r => follows_mono (ih htail (v := after v (.clear j) r) hv) fun v' held' _ h => ?_⟩
    obtain ⟨hv', hheld, hall⟩ := h
    refine ⟨hv', hheld, fun i hi' => hall i ?_⟩
    simp only [after, List.mem_cons] at hi' ⊢
    tauto

/-- `Flush` has cleared every map when it stores the counter, and drops the
heap next. -/
theorem clean_flush : Clean (flush : Op c Unit) := by
  intro v held hv
  have hshards : Follows rules (fun v' _ _ => v'.debts = [] ∧ v'.gap = true) v held (clearShards : Op c Unit) := by
    refine follows_bind (follows_lockAll _ v held) fun v' held' _ h => ?_
    obtain ⟨rfl, -, hall⟩ := h
    refine follows_bind (follows_clearAll hall hv) fun v₁ held₁ _ h => ?_
    obtain ⟨hv₁, rfl, hcleared⟩ := h
    refine ⟨⟨hv₁.2, fun i => hcleared i (.inr (List.mem_finRange i))⟩, fun r => ?_⟩
    refine follows_mono (follows_unlockAll _ (after v₁ (.storeCount 0) r) held₁) fun v₂ held₂ _ h => ?_
    exact ⟨h.1.trans hv₁.1, h.2⟩
  refine follows_bind hshards fun v' held' _ h => ?_
  exact ⟨h.2, fun _ => ⟨h.1, rfl⟩⟩

/-- What was popped is owed until its key has been looked at: the entry has
another deadline then, or it is purged. -/
theorem follows_purgeDue (d : ExpEntry) {v : View c} (held : List (Lock c × Mode)) (hgap : v.gap = false) :
    Follows rules (fun v' _ _ => v'.gap = false ∧ ∀ x ∈ v'.debts, x ∈ v.debts ∧ x ≠ d) v held
      (purgeDue d : Op c Unit) := by
  simp only [purgeDue, shardForString_eq]
  refine ⟨⟨hgap, rfl, .write, List.mem_cons_self⟩, fun e => ?_⟩
  cases e with
  | none =>
    refine ⟨hgap, fun x hx => ?_⟩
    obtain ⟨hx, hkey⟩ := List.mem_filter.mp hx
    exact ⟨hx, fun hd => by simp [hd] at hkey⟩
  | some cur =>
    change Follows rules _ _ _ (purgeIf (shardIndex c d.key) d (some cur) >>= _)
    rw [purgeIf]
    split_ifs with hdue
    · refine ⟨⟨hgap, rfl, List.mem_cons_self⟩, fun _ => ⟨hgap, fun _ => ⟨hgap, fun x hx => ?_⟩⟩⟩
      obtain ⟨hx, hkey⟩ := List.mem_filter.mp hx
      exact ⟨List.mem_of_mem_filter hx, fun hd => by simp [hd] at hkey⟩
    · refine ⟨hgap, fun x hx => ?_⟩
      obtain ⟨hx, hkey⟩ := List.mem_filter.mp hx
      exact ⟨hx, fun hd => by simp [hd, hdue] at hkey⟩

theorem follows_purgeAll (ds : List ExpEntry) {v : View c} (held : List (Lock c × Mode)) (hgap : v.gap = false)
    (hdebts : ∀ d ∈ v.debts, d ∈ ds) : Follows rules (fun v' _ _ => Settled v') v held (purgeAll ds : Op c Unit) := by
  induction ds generalizing v held with
  | nil => exact ⟨List.eq_nil_iff_forall_not_mem.mpr fun d hd => List.not_mem_nil (hdebts d hd), hgap⟩
  | cons d ds ih =>
    refine follows_bind (follows_purgeDue d held hgap) fun v' held' _ h => ih held' h.1 fun x hx => ?_
    obtain ⟨hx, hne⟩ := h.2 x hx
    exact (List.mem_cons.mp (hdebts x hx)).resolve_left hne

theorem clean_sweep (now : Instant) : Clean (StoreLocks.sweep now : Op c Unit) := by
  intro v held hv
  refine ⟨hv.2, fun (due : List ExpEntry) => follows_purgeAll due _ hv.2 fun d hd => ?_⟩
  have hd' : d ∈ due ++ v.debts := hd
  rwa [hv.1, List.append_nil] at hd'

end Clean

def program (o : Step × Readings) : Op c Result :=
  match o.1 with
  | .call a => runCall o.2 a
  | .sweep => (fun _ => .unit) <$> StoreLocks.sweep (o.2 0)

theorem clean_program (o : Step × Readings) : Clean (program o : Op c Result) := by
  obtain ⟨st, now⟩ := o
  cases st with
  | sweep => exact clean_map _ (clean_sweep (now 0))
  | call a =>
    cases a with
    | get key => exact clean_map _ (clean_onKey tracks_get now key)
    | set key val ttl mode => exact clean_map _ (clean_onKey (tracks_set val ttl mode) now key)
    | del keys => exact clean_map _ (clean_delKeys now keys)
    | existsKeys keys => exact clean_map _ (clean_existsKeys now keys)
    | incrBy key delta => exact clean_map _ (clean_onKey (tracks_incrBy delta) now key)
    | append key suffix => exact clean_map _ (clean_onKey (tracks_append _ suffix) now key)
    | expire key ttl => exact clean_map _ (clean_onKey (tracks_expire ttl) now key)
    | expireAt key secs => exact clean_map _ (clean_onKey (tracks_expireAtNanos _) now key)
    | expireAtMs key ms => exact clean_map _ (clean_onKey (tracks_expireAtNanos _) now key)
    | ttl key => exact clean_map _ (clean_onKey tracks_ttl now key)
    | persist key => exact clean_map _ (clean_onKey tracks_persist now key)
    | getSet key val => exact clean_map _ (clean_onKey (tracks_getSet val) now key)
    | setNXMulti pairs => exact clean_map _ (clean_setNXMulti now pairs)
    | flush => exact clean_map _ clean_flush
    | keys pattern => exact clean_map _ (clean_keysFrom pattern now _)
    | typeOf key => exact clean_map _ (clean_onKey tracks_get now key)

end MemX.StoreDebts
