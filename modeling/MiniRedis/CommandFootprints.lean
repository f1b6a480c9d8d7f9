import MiniRedis.CommandSections
import MiniRedis.LiveEntries

/-!
# What the critical sections of a command touch

Two databases are compared slot by slot: what a shard stores under a key, whether or not
the key belongs there, and the pub/sub table. A command touches the slots of its own keys.
-/
namespace MiniRedis
open AtomicPrograms Wire

variable {host : Host} {A : Type}

inductive Location where
  | slot (i : Fin shardCount) (key : Bytes)
  | pubsub

namespace Db

def SameAt : Location → Db host → Db host → Prop
  | .slot i key, db, db' => (db.shards i).stored key = (db'.shards i).stored key
  | .pubsub, db, db' => db.pubsub = db'.pubsub

theorem sameAt_equivalence (l : Location) : Equivalence (@SameAt host l) := by
  cases l with
  | slot i key => exact ⟨fun _ => rfl, fun h => h.symm, fun h h' => h.trans h'⟩
  | pubsub => exact ⟨fun _ => rfl, fun h => h.symm, fun h h' => h.trans h'⟩

end Db

/-- Where the entry of a key is stored. -/
def keySlot (host : Host) (key : Bytes) : Location := .slot (shardIndex host key) key

def slots (host : Host) (keys : List Bytes) : Set Location :=
  {l | ∃ key ∈ keys, l = keySlot host key}

theorem slots_cons_subset {key : Bytes} {keys : List Bytes} {F : Set Location} :
    slots host (key :: keys) ⊆ F ↔ keySlot host key ∈ F ∧ slots host keys ⊆ F := by
  constructor
  · intro h
    refine ⟨h ⟨key, List.mem_cons_self, rfl⟩, fun l hl => ?_⟩
    rcases hl with ⟨k, hk, rfl⟩
    exact h ⟨k, List.mem_cons_of_mem _ hk, rfl⟩
  · rintro ⟨hkey, hkeys⟩ l ⟨k, hk, rfl⟩
    rcases List.mem_cons.mp hk with rfl | hk
    · exact hkey
    · exact hkeys ⟨k, hk, rfl⟩

theorem mem_slots {keys : List Bytes} {key : Bytes} (h : key ∈ keys) :
    keySlot host key ∈ slots host keys := ⟨key, h, rfl⟩

theorem keySlot_injective : Function.Injective (keySlot host) := by
  intro a b h
  injection h

namespace Db

/-- A critical section writes into the slot of its key only. -/
theorem sameAt_locked (db : Db host) {key : Bytes} (section_ : Shard → A × Shard) {o : Slot}
    (h : Assigns (db.shardFor key) (section_ (db.shardFor key)).2 key o) :
    (∀ l, l ≠ keySlot host key → SameAt l db (db.locked key section_).2) ∧
      ((db.locked key section_).2.shardFor key).stored key = o := by
  constructor
  · intro l hl
    cases l with
    | pubsub => rfl
    | slot i k =>
        change (db.shards i).stored k =
          (Function.update db.shards (shardIndex host key) _ i).stored k
        rw [Function.update_apply]
        split_ifs with hi
        · have hk : k ≠ key := fun hk => hl (by rw [hk, hi]; rfl)
          rw [h.stored, Function.update_of_ne hk, hi]
          rfl
        · rfl
  · change (Function.update db.shards (shardIndex host key) _ (shardIndex host key)).stored key = o
    rw [Function.update_self, h.stored, Function.update_self]

theorem sameAt_restoreEntry (db : Db host) (key : Bytes) (snapshot : Option Entry) :
    (∀ l, l ≠ keySlot host key → SameAt l db (db.restoreEntry key snapshot)) ∧
      (db.restoreEntry key snapshot).entry key = snapshot := by
  refine sameAt_locked db _ ?_
  cases snapshot with
  | none => exact Assigns.removeEntry (db.shardFor key) key
  | some entry => exact Shard.assigns_restore (db.shardFor key) key entry

end Db

namespace Cmd
open Db
variable {F : Set Location} {key : Bytes}

/-- A critical section on one key, as a function of the live entry. -/
theorem within_locked (hF : keySlot host key ∈ F) {section_ : ExpireAt → Shard → A × Shard}
    {slot : ExpireAt → Slot → A × Slot} (h : ∀ now, Acts now key (section_ now) (slot now))
    {next : A → Sections host} (hnext : ∀ a, (next a).Within SameAt F) :
    Program.Within SameAt F (.atomic (fun now db => (db.locked key (section_ now)).2)
      fun now db => next (db.locked key (section_ now)).1) := by
  intro now db
  have hdb := sameAt_locked db (section_ now) ((h now).assigns (db.shardFor key))
  refine ⟨fun db' hsame => ?_, fun l hl => hdb.1 l fun heq => hl (heq ▸ hF), hnext _⟩
  have hdb' := sameAt_locked db' (section_ now) ((h now).assigns (db'.shardFor key))
  have hlive : (db.shardFor key).live now key = (db'.shardFor key).live now key :=
    congrArg (Slot.alive now) (hsame _ hF)
  constructor
  · intro l hl
    by_cases hk : l = keySlot host key
    · rw [hk]
      change ((db.locked key (section_ now)).2.shardFor key).stored key =
        ((db'.locked key (section_ now)).2.shardFor key).stored key
      rw [hdb.2, hdb'.2, hlive]
    · have heq : Equivalence (@SameAt host l) := sameAt_equivalence l
      exact heq.trans (heq.symm (hdb.1 l hk)) (heq.trans (hsame l hl) (hdb'.1 l hk))
  · have hreply : (db.locked key (section_ now)).1 = (db'.locked key (section_ now)).1 := by
      change (section_ now (db.shardFor key)).1 = (section_ now (db'.shardFor key)).1
      rw [(h now).reply, (h now).reply, hlive]
    exact congrArg next hreply

/-- A critical section that reads one entry. -/
theorem within_entry (hF : keySlot host key ∈ F) {f : ExpireAt → Db host → A}
    (hf : ∀ now db db', Db.entry db key = Db.entry db' key → f now db = f now db')
    {next : A → Sections host} (hnext : ∀ a, (next a).Within SameAt F) :
    Program.Within SameAt F (.atomic (fun _ db => db) fun now db => next (f now db)) := by
  intro now db
  exact ⟨fun db' hsame => ⟨hsame, congrArg next (hf now db db' (hsame _ hF))⟩,
    fun l _ => (sameAt_equivalence l).refl db, hnext _⟩

theorem within_done (reply : Frame) : (Program.done reply : Sections host).Within SameAt F :=
  trivial

theorem within_once (hF : keySlot host key ∈ F) {section_ : ExpireAt → Shard → Frame × Shard}
    {slot : ExpireAt → Slot → Frame × Slot} (h : ∀ now, Acts now key (section_ now) (slot now)) :
    (once fun now (db : Db host) => db.locked key (section_ now)).Within SameAt F :=
  within_locked hF h within_done

theorem within_look (hF : keySlot host key ∈ F) {f : ExpireAt → Db host → Frame}
    (hf : ∀ now db db', Db.entry db key = Db.entry db' key → f now db = f now db') :
    (look f).Within SameAt F := within_entry hF hf within_done

/-- The read commands but `TTL` and `PTTL`. -/
theorem within_readLive (hF : keySlot host key ∈ F) (missing : Frame) (found : Value → Frame) :
    (look fun now (db : Db host) => readLive now db key missing found).Within SameAt F :=
  within_look hF fun now db db' h => by unfold readLive; rw [h]

theorem within_ttl (hF : keySlot host key ∈ F) (inMs : Bool) :
    (look fun now (db : Db host) => ttl now db key inMs).Within SameAt F :=
  within_look hF fun now db db' h => by unfold ttl; rw [h]

theorem within_delSections {keys : List Bytes} (hF : slots host keys ⊆ F) (removed : ℕ) :
    (delSections keys removed : Sections host).Within SameAt F := by
  induction keys generalizing removed with
  | nil => trivial
  | cons key keys ih =>
      have hF' := slots_cons_subset.mp hF
      exact within_locked hF'.1 (fun now => acts_delSection now key) fun live =>
        ih hF'.2 (if live then removed + 1 else removed)

theorem within_existsSections {keys : List Bytes} (hF : slots host keys ⊆ F) (count : ℕ) :
    (existsSections keys count : Sections host).Within SameAt F := by
  induction keys generalizing count with
  | nil => trivial
  | cons key keys ih =>
      have hF' := slots_cons_subset.mp hF
      have hdep : ∀ now (db db' : Db host), db.entry key = db'.entry key →
          existsOne now db key = existsOne now db' key := fun now db db' h => by
        rw [existsOne, existsOne, h]
      exact within_entry hF'.1 hdep fun found => ih hF'.2 (if found then count + 1 else count)

theorem within_mgetSections {keys : List Bytes} (hF : slots host keys ⊆ F) (responseLen : ℕ)
    (frames : List Frame) :
    (mgetSections keys responseLen frames : Sections host).Within SameAt F := by
  induction keys generalizing responseLen frames with
  | nil => trivial
  | cons key keys ih =>
      have hF' := slots_cons_subset.mp hF
      have hdep : ∀ now (db db' : Db host), db.entry key = db'.entry key →
          mgetFrame now db key = mgetFrame now db' key := fun now db db' h => by
        unfold mgetFrame readLive
        rw [h]
      have hnext : ∀ frame, ((mgetLenWith responseLen frame).elim (.done responseTooLarge)
          fun responseLen => mgetSections keys responseLen (frames ++ [frame]) :
            Sections host).Within SameAt F := by
        intro frame
        cases mgetLenWith responseLen frame with
        | none => trivial
        | some n => exact ih hF'.2 n _
      exact within_entry hF'.1 hdep hnext

theorem within_msetSections {pairs : List (Bytes × Bytes)}
    (hF : slots host (pairs.map Prod.fst) ⊆ F) :
    (msetSections pairs : Sections host).Within SameAt F := by
  induction pairs with
  | nil => trivial
  | cons p pairs ih =>
      have hF' := slots_cons_subset.mp hF
      have hacts : ∀ now, Acts now p.1 (fun shard => ((), msetSection p.1 p.2 shard))
          fun _ => ((), some ⟨.string p.2, none⟩) :=
        fun now => ⟨fun _ => rfl, fun shard => assigns_msetSection shard p.1 p.2⟩
      exact within_locked hF'.1 hacts fun _ => ih hF'.2

/-- The statistics of a shard do not depend on the order of its entries. -/
theorem addTo_congr {shard shard' : Shard} (h : shard.stored = shard'.stored) (now : ExpireAt)
    (stats : DbStats) : shard.addTo now stats = shard'.addTo now stats := by
  have hperm := FiniteMap.entries_perm fun key => congrFun h key
  have hcomm : RightCommutative fun (stats : DbStats) (e : (_ : Bytes) × Entry) =>
      if entryExpired now e.2 then stats else stats.count e.1 e.2 := by
    constructor
    intro stats a b
    split_ifs
    · rfl
    · rfl
    · rfl
    · have hpair : ∀ x y : Bytes × Entry, (stats.count x.1 x.2).count y.1 y.2 =
          (stats.count y.1 y.2).count x.1 x.2 := fun x y =>
        (inferInstance : RightCommutative fun (stats : DbStats) (e : Bytes × Entry) =>
          stats.count e.1 e.2).right_comm stats x y
      exact hpair (a.1, a.2) (b.1, b.2)
  exact hperm.foldl_eq stats

theorem within_statsSections (now : ExpireAt) (report : DbStats → Frame)
    (hF : ∀ i key, .slot i key ∈ F) (shards : List (Fin shardCount)) (stats : DbStats) :
    (statsSections now report shards stats : Sections host).Within SameAt F := by
  induction shards generalizing stats with
  | nil => trivial
  | cons i shards ih =>
      intro _ db
      refine ⟨fun db' hsame => ⟨hsame, ?_⟩, fun l _ => (sameAt_equivalence l).refl db, ih _⟩
      have hstored : (db.shards i).stored = (db'.shards i).stored :=
        funext fun key => hsame _ (hF i key)
      exact congrArg (statsSections now report shards) (addTo_congr hstored now stats)

theorem within_infoSections (aof : Option AofStats) (state : Option ServerState)
    (section_ : Option String) : (infoSections aof state section_ : Sections host).Within SameAt
      {l | infoIncludes section_ "memory" = true ∧ ∃ i key, l = .slot i key} := by
  intro now db
  refine ⟨fun db' hsame => ⟨hsame, rfl⟩, fun l _ => (sameAt_equivalence l).refl db, ?_⟩
  dsimp only
  split_ifs with hm
  · have hF : ∀ i key, Location.slot i key ∈
        {l | infoIncludes section_ "memory" = true ∧ ∃ i key, l = .slot i key} :=
      fun i key => ⟨hm, i, key, rfl⟩
    exact within_statsSections now _ hF _ _
  · trivial

/-- A step on the pub/sub table. -/
theorem within_pubsub {f : Db host → Frame × Db host} (hshards : ∀ db, (f db).2.shards = db.shards)
    (hf : ∀ db db', db.pubsub = db'.pubsub →
      (f db).2.pubsub = (f db').2.pubsub ∧ (f db).1 = (f db').1) :
    (once fun _ db => f db).Within SameAt {.pubsub} := by
  intro now db
  refine ⟨fun db' hsame => ?_, fun l hl => ?_, trivial⟩
  · have heq := hf db db' (hsame .pubsub rfl)
    refine ⟨fun l hl => ?_, congrArg Program.done heq.2⟩
    cases hl
    exact heq.1
  · cases l with
    | pubsub => exact (hl rfl).elim
    | slot i key => exact congrArg (fun shards => (shards i).stored key) (hshards db).symm

theorem shards_publish (db : Db host) (channel : Bytes) :
    (db.pubsubPublish channel).2.shards = db.shards := by
  unfold Db.pubsubPublish
  split
  · split_ifs <;> rfl
  · rfl

/-- `PUBLISH` depends on the pub/sub table alone. -/
theorem publish_congr (channel : Bytes) (db db' : Db host) (h : db.pubsub = db'.pubsub) :
    (db.pubsubPublish channel).2.pubsub = (db'.pubsubPublish channel).2.pubsub ∧
      Frame.integer (Int64.ofNat (db.pubsubPublish channel).1) =
        .integer (Int64.ofNat (db'.pubsubPublish channel).1) := by
  unfold Db.pubsubPublish
  rw [h]
  cases db'.pubsub.lookup channel with
  | none => exact ⟨h, rfl⟩
  | some tx =>
      dsimp only
      split_ifs <;> simp [h]

theorem within_publish (channel : Bytes) :
    (once fun _ (db : Db host) => (.integer (Int64.ofNat (db.pubsubPublish channel).1),
      (db.pubsubPublish channel).2)).Within SameAt {.pubsub} :=
  within_pubsub (fun db => shards_publish db channel) (publish_congr channel)

end Cmd

namespace Command
open Cmd Db

/-- The locations that a command reads or writes. -/
def footprint (host : Host) : Command → Set Location
  | publish .. => {.pubsub}
  | info section_ => {l | infoIncludes section_ "memory" = true ∧ ∃ i key, l = .slot i key}
  | c => slots host (c.mutatedKeys ++ c.readKeys)

theorem within_sections (c : Command) :
    (c.sections : Sections host).Within SameAt (c.footprint host) := by
  have hone : ∀ k, keySlot host k ∈ slots host [k] := fun k => ⟨k, List.mem_cons_self, rfl⟩
  cases c with
  | set key value expiresAt =>
      unfold sections
      dsimp only
      split_ifs with h
      · have hset : (fun (_ : ExpireAt) (db : Db host) => setAt db key value expiresAt) =
            fun _ db => db.locked key fun shard =>
              (.simple "OK", setSection key value expiresAt shard) := by
          funext _ db
          rw [setAt, if_pos h]
        rw [hset]
        have hacts : ∀ now, Acts now key
            (fun shard => (Frame.simple "OK", setSection key value expiresAt shard))
            fun _ => (.simple "OK", some ⟨.string value, expiresAt⟩) :=
          fun now => ⟨fun _ => rfl, fun shard => assigns_setSection shard key value expiresAt⟩
        exact within_once (hone key) hacts
      · trivial
  | del keys => exact within_delSections (by simp [footprint, mutatedKeys, readKeys]) 0
  | existsKeys keys => exact within_existsSections (le_refl _) 0
  | mget keys =>
      unfold sections
      dsimp only
      cases respArrayHeaderLen keys.length with
      | none => trivial
      | some n => exact within_mgetSections (le_refl _) n []
  | mset pairs =>
      unfold sections
      dsimp only
      split_ifs
      · trivial
      · exact within_msetSections (by simp [footprint, mutatedKeys, readKeys])
  | incr k | decr k | incrBy k n | append k v =>
      exact within_once (hone k) fun now => acts_update now k _ _
  | decrBy k n =>
      unfold sections
      dsimp only
      cases checkedNegI64 n with
      | some neg => exact within_once (hone k) fun now => acts_update now k _ _
      | none => trivial
  | expire k d | pexpire k d | pexpireAt k d =>
      exact within_once (hone k) fun now => acts_expireSection now k d
  | persist k => exact within_once (hone k) fun now => acts_persistSection now k
  | lpush k vs | rpush k vs | hset k ps | hincrby k f n =>
      exact within_once (hone k) fun now => acts_update_container now k _ _
  | lpop k count | rpop k count =>
      cases count <;> exact within_once (hone k) fun now => acts_takeFrom now k _ _
  | hdel k fs => exact within_once (hone k) fun now => acts_takeFrom now k _ _
  | get k | strlen k | lrange k s e | llen k | lindex k i | hget k f | hkeys k | hvals k
  | hgetall k | hexists k f | hlen k => exact within_readLive (hone k) _ _
  | ttl k | pttl k => exact within_ttl (hone k) _
  | publish ch msg => exact within_publish ch
  | info section_ => exact within_infoSections none none section_
  | ping msg => cases msg <;> trivial
  | _ => trivial

end Command

theorem Command.footprint_write {c : Command} (h : c.isWrite = true) :
    c.footprint host = slots host c.mutatedKeys := by
  have hkeys : c.readKeys = [] := by
    cases c <;> first | rfl | exact nomatch h
  have hslots : c.footprint host = slots host (c.mutatedKeys ++ c.readKeys) := by
    cases c <;> first | rfl | exact nomatch h
  rw [hslots, hkeys, List.append_nil]

theorem Command.footprint_read {c : Command} (h : c.isWrite = false)
    (hp : ∀ ch msg, c ≠ .publish ch msg) (hi : ∀ section_, c ≠ .info section_) :
    c.footprint host = slots host c.readKeys := by
  have hkeys : c.mutatedKeys = [] := by
    cases c <;> first | rfl | exact nomatch h
  have hslots : c.footprint host = slots host (c.mutatedKeys ++ c.readKeys) := by
    cases c <;> first | rfl | exact (hp _ _ rfl).elim | exact (hi _ rfl).elim
  rw [hslots, hkeys, List.nil_append]

/-! ## Commands that only read -/

namespace Cmd

theorem readOnly_look (f : ExpireAt → Db host → Frame) : (look f).ReadOnly :=
  fun _ _ => ⟨rfl, trivial⟩

theorem readOnly_existsSections (keys : List Bytes) (count : ℕ) :
    (existsSections keys count : Sections host).ReadOnly := by
  induction keys generalizing count with
  | nil => trivial
  | cons key keys ih => exact fun now db => ⟨rfl, ih _⟩

theorem readOnly_mgetSections (keys : List Bytes) (responseLen : ℕ) (frames : List Frame) :
    (mgetSections keys responseLen frames : Sections host).ReadOnly := by
  induction keys generalizing responseLen frames with
  | nil => trivial
  | cons key keys ih =>
      refine fun now db => ⟨rfl, ?_⟩
      dsimp only
      cases mgetLenWith responseLen (mgetFrame now db key) with
      | none => trivial
      | some n => exact ih n _

theorem readOnly_statsSections (now : ExpireAt) (report : DbStats → Frame)
    (shards : List (Fin shardCount)) (stats : DbStats) :
    (statsSections now report shards stats : Sections host).ReadOnly := by
  induction shards generalizing stats with
  | nil => trivial
  | cons i shards ih => exact fun _ db => ⟨rfl, ih _⟩

theorem readOnly_infoSections (aof : Option AofStats) (state : Option ServerState)
    (section_ : Option String) : (infoSections aof state section_ : Sections host).ReadOnly :=
  fun now _ => ⟨rfl, readOnly_statsSections now _ _ _⟩

end Cmd

/-- Outside of the gate only `PUBLISH` changes anything. -/
theorem Command.readOnly_sections {c : Command} (hw : c.isWrite = false)
    (hp : ∀ ch msg, c ≠ .publish ch msg) : (c.sections : Sections host).ReadOnly := by
  cases c with
  | publish ch msg => exact (hp ch msg rfl).elim
  | existsKeys keys => exact Cmd.readOnly_existsSections keys 0
  | mget keys =>
      unfold sections
      dsimp only
      cases respArrayHeaderLen keys.length with
      | none => trivial
      | some n => exact Cmd.readOnly_mgetSections keys n []
  | info section_ => exact Cmd.readOnly_infoSections none none section_
  | get k | strlen k | lrange k s e | llen k | lindex k i | hget k f | hkeys k | hvals k
  | hgetall k | hexists k f | hlen k | ttl k | pttl k => exact Cmd.readOnly_look _
  | ping msg => cases msg <;> trivial
  | echo msg | bgRewriteAof | subscribe chs | unsubscribe chs | unknown name => trivial
  | _ => cases hw

end MiniRedis
