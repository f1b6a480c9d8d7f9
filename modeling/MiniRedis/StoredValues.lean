import MiniRedis.LoggedSizes
import MiniRedis.Reachability

/-!
# Stored values are well formed

A container key exists exactly while it has an element, and a stored string, list
element or field value fits a reply. Every command that a client can send keeps it
that way: containers are inserted empty only in front of an operation that fills them,
and taken away by the operation that empties them.
-/
namespace MiniRedis
open Wire Cmd

variable {host : Host}

theorem assignedValue_mem {k v : Bytes} {pairs : List (Bytes × Bytes)}
    (h : assignedValue k pairs = some v) : (k, v) ∈ pairs := by
  induction pairs with
  | nil => cases h
  | cons p pairs ih =>
      rw [assignedValue] at h
      cases ha : assignedValue k pairs with
      | none =>
          rw [ha] at h
          change (if k = p.1 then some p.2 else none) = some v at h
          split_ifs at h with hk
          rw [← Option.some.inj h, hk]
          exact List.mem_cons_self
      | some w =>
          rw [ha] at h
          refine List.mem_cons_of_mem _ (ih ?_)
          rwa [ha]

/-- The bytes can be a reply of their own. -/
def Answerable (b : Bytes) : Prop := bulkResponseFits b.length = true

def Value.WellFormed : Value → Prop
  | .string s => Answerable s
  | .list l => l ≠ [] ∧ ∀ v ∈ l, Answerable v
  | .hash m => m.entries ≠ [] ∧ ∀ f v, m.lookup f = some v → Answerable v

namespace Cmd

theorem answerable_number (n : Int64) : Answerable (Numeral.signed n.toInt) :=
  bulkResponseFits_mono (ParserRoundTrip.length_signed_le n) (by decide)

theorem wellFormed_incrValue (delta : Int64) {v : Value} (h : v.WellFormed) :
    (incrValue delta v).2.WellFormed := by
  unfold incrValue
  split
  · split
    · exact h
    · split
      · exact h
      · exact answerable_number _
  · exact h

theorem wellFormed_appendValue (suffix : Bytes) {v : Value} (h : v.WellFormed) :
    (appendValue suffix v).2.WellFormed := by
  unfold appendValue
  split
  · split
    · exact h
    · rename_i b n hn
      split_ifs with hf
      · have hlen := (usize?_eq_some.mp hn).1
        rw [← hlen, ← List.length_append] at hf
        exact hf
      · exact h
  · exact h

theorem foldl_pushOne_ne_nil (side : PushSide) {values : List Bytes} (list : List Bytes)
    (h : values ≠ [] ∨ list ≠ []) : values.foldl (pushOne side) list ≠ [] := by
  induction values generalizing list with
  | nil => exact h.resolve_left fun hn => hn rfl
  | cons v values ih =>
      refine ih _ (Or.inr ?_)
      cases side <;> simp [pushOne]

theorem mem_foldl_pushOne (side : PushSide) {values list : List Bytes} {v : Bytes}
    (h : v ∈ values.foldl (pushOne side) list) : v ∈ values ∨ v ∈ list := by
  induction values generalizing list with
  | nil => exact Or.inr h
  | cons w values ih =>
      rcases ih h with hv | hv
      · exact Or.inl (List.mem_cons_of_mem w hv)
      · cases side <;> simp only [pushOne, List.mem_cons, List.mem_append, List.not_mem_nil,
          or_false] at hv ⊢ <;> tauto

theorem wellFormed_pushValue {values : List Bytes} (hne : values ≠ [])
    (hv : ∀ v ∈ values, Answerable v) (side : PushSide) {v : Value}
    (h : v.WellFormed ∨ v = .list []) : (pushValue values side v).2.WellFormed := by
  cases v with
  | list l =>
      have hl : ∀ w ∈ l, Answerable w := by
        rcases h with h | h
        · exact h.2
        · cases h
          exact List.forall_mem_nil _
      exact ⟨foldl_pushOne_ne_nil side l (Or.inl hne),
        fun w hw => (mem_foldl_pushOne side hw).elim (hv w) (hl w)⟩
  | string b | hash m => exact h.resolve_right fun hn => by cases hn

theorem popOne_subset (side : PopSide) (list : List Bytes) :
    (∀ v ∈ (popOne side list).1, v ∈ list) ∧ ∀ v ∈ (popOne side list).2, v ∈ list := by
  cases side with
  | left => exact ⟨fun v hv => List.mem_of_mem_head? hv, fun v hv => List.mem_of_mem_tail hv⟩
  | right =>
    exact ⟨fun v hv => List.mem_of_mem_getLast? hv, fun v hv => List.dropLast_subset list hv⟩

/-- What is popped, and what is left, was in the list. -/
theorem popLoop_subset (side : PopSide) (n : ℕ) (list : List Bytes) :
    (∀ v ∈ (popLoop side n list).1, v ∈ list) ∧ ∀ v ∈ (popLoop side n list).2, v ∈ list := by
  induction n generalizing list with
  | zero => exact ⟨List.forall_mem_nil _, fun v hv => hv⟩
  | succ n ih =>
      have hone := popOne_subset side list
      have hrest := ih (popOne side list).2
      constructor
      · intro v hv
        rcases List.mem_append.mp hv with hv | hv
        · exact hone.1 v (Option.mem_toList.mp hv)
        · exact hone.2 v (hrest.1 v hv)
      · exact fun v hv => hone.2 v (hrest.2 v hv)

theorem wellFormed_popValue (count : Option ℕ) (side : PopSide) {v v' : Value} (h : v.WellFormed)
    (hv : (popValue count side v).2 = some v') : v'.WellFormed := by
  unfold popValue at hv
  split at hv
  · dsimp only at hv
    split_ifs at hv with h₁ h₂ h₃
    · rw [← Option.some.inj hv]
      exact h
    · rw [← Option.some.inj hv]
      exact h
    · rw [← Option.some.inj hv]
      constructor
      · intro hn
        exact h₃ (by rw [hn]; rfl)
      · exact fun w hw => h.2 w ((popLoop_subset side _ _).2 w hw)
  · rw [← Option.some.inj hv]
    exact h

/-- The fields after `HSET`: the last value given for each, or what it had. -/
theorem lookup_foldl_hsetOne (pairs : List (Bytes × Bytes)) (r : ℕ × HashMap Bytes Bytes)
    (f : Bytes) :
    (pairs.foldl hsetOne r).2.lookup f = (assignedValue f pairs).or (r.2.lookup f) := by
  induction pairs generalizing r with
  | nil => rfl
  | cons p pairs ih =>
      rw [List.foldl_cons, ih, assignedValue]
      have hi : (hsetOne r p).2.lookup f =
          Function.update (fun f => r.2.lookup f) p.1 (some p.2) f :=
        congrFun (FiniteMap.lookup_insert r.2 p.1 p.2) f
      rw [hi, Function.update_apply]
      cases assignedValue f pairs with
      | none => split_ifs <;> simp
      | some v => rfl

theorem wellFormed_hsetValue {pairs : List (Bytes × Bytes)} (hne : pairs ≠ [])
    (hp : ∀ p ∈ pairs, Answerable p.2) {v : Value} (h : v.WellFormed ∨ v = .hash ∅) :
    (hsetValue pairs v).2.WellFormed := by
  cases v with
  | hash m =>
      have hm : ∀ f v, m.lookup f = some v → Answerable v := by
        rcases h with h | h
        · exact h.2
        · cases h
          exact fun f v hv => by cases hv
      constructor
      · cases pairs with
        | nil => exact (hne rfl).elim
        | cons p pairs =>
            refine FiniteMap.entries_ne_nil_iff.mpr ⟨p.1, ?_⟩
            rw [lookup_foldl_hsetOne, assignedValue, if_pos rfl]
            cases assignedValue p.1 pairs <;> rfl
      · intro f v hv
        rw [lookup_foldl_hsetOne] at hv
        cases ha : assignedValue f pairs with
        | none => exact hm f v (by rwa [ha] at hv)
        | some w =>
            rw [ha] at hv
            exact Option.some.inj hv ▸ hp _ (assignedValue_mem ha)
  | string b | list l => exact h.resolve_right fun hn => by cases hn

/-- The fields after `HDEL`: those that are not named. -/
theorem lookup_foldl_hdelOne (fields : List Bytes) (r : ℕ × HashMap Bytes Bytes) (f : Bytes) :
    (fields.foldl hdelOne r).2.lookup f = if f ∈ fields then none else r.2.lookup f := by
  induction fields generalizing r with
  | nil => simp
  | cons g fields ih =>
      have he : (hdelOne r g).2.lookup f = if f = g then none else r.2.lookup f :=
        FiniteMap.lookup_erase_apply r.2 g f
      rw [List.foldl_cons, ih, he]
      by_cases hf : f = g <;> simp [hf]

theorem wellFormed_hdelValue (fields : List Bytes) {v v' : Value} (h : v.WellFormed)
    (hv : (hdelValue fields v).2 = some v') : v'.WellFormed := by
  cases v with
  | hash m =>
      simp only [hdelValue] at hv
      split_ifs at hv with he
      rw [← Option.some.inj hv]
      constructor
      · intro hn
        exact he (by rw [hn]; rfl)
      · intro f v hf
        rw [lookup_foldl_hdelOne] at hf
        split_ifs at hf
        exact h.2 f v hf
  | string b | list l =>
      rw [← Option.some.inj hv]
      exact h

/-- A field set to an answerable value leaves the map well formed. -/
theorem wellFormed_insert {m : HashMap Bytes Bytes}
    (hm : ∀ f v, m.lookup f = some v → Answerable v) (field : Bytes) {value : Bytes}
    (hv : Answerable value) : (Value.hash (m.insert field value)).WellFormed := by
  constructor
  · exact FiniteMap.entries_insert_ne_nil m field value
  · intro f v hf
    have hi : Function.update (fun f => m.lookup f) field (some value) f = some v :=
      (congrFun (FiniteMap.lookup_insert m field value) f).symm.trans hf
    rw [Function.update_apply] at hi
    split_ifs at hi
    · exact Option.some.inj hi ▸ hv
    · exact hm f v hi

theorem wellFormed_hincrbyValue (field : Bytes) (delta : Int64) {v : Value}
    (h : v.WellFormed ∨ v = .hash ∅) : (hincrbyValue field delta v).2.WellFormed := by
  cases v with
  | hash m =>
      have hm₀ : ∀ f v, m.lookup f = some v → Answerable v := by
        rcases h with h | h
        · exact h.2
        · cases h
          exact fun f v hv => by cases hv
      have hm : (Value.hash (if (m.lookup field).isSome then m
          else m.insert field zeroBytes)).WellFormed := by
        split_ifs with hf
        · exact ⟨FiniteMap.entries_ne_nil_iff.mpr ⟨field, hf⟩, hm₀⟩
        · exact wellFormed_insert hm₀ field (answerable_number 0)
      simp only [hincrbyValue]
      split
      · exact hm
      · split
        · exact hm
        · exact wellFormed_insert hm.2 field (answerable_number _)
  | string b | list l => exact h.resolve_right fun hn => by cases hn

end Cmd

namespace Slot

def WellFormed (slot : Slot) : Prop := ∀ entry, slot = some entry → entry.value.WellFormed

theorem wellFormed_none : WellFormed none := fun _ h => by cases h

theorem wellFormed_some {entry : Entry} (h : entry.value.WellFormed) : WellFormed (some entry) :=
  fun _ he => by rwa [← Option.some.inj he]

theorem wellFormed_update {default : Value} {body : Value → Frame × Value}
    (hb : ∀ v, v.WellFormed ∨ v = default → (body v).2.WellFormed) {s : Slot} (h : s.WellFormed) :
    (Slot.update default body s).2.WellFormed := by
  refine wellFormed_some (hb _ ?_)
  cases s with
  | none => exact Or.inr rfl
  | some entry => exact Or.inl (h entry rfl)

theorem wellFormed_takeFrom {missing : Frame} {body : Value → Frame × Option Value}
    (hb : ∀ v v', v.WellFormed → (body v).2 = some v' → v'.WellFormed) {s : Slot}
    (h : s.WellFormed) : (Slot.takeFrom missing body s).2.WellFormed := by
  cases s with
  | none => exact wellFormed_none
  | some entry =>
      intro e he
      have hv := Option.map_eq_some_iff.mp he
      cases hv with
      | intro v hv =>
          rw [← hv.2]
          exact hb _ v (h entry rfl) hv.1

theorem wellFormed_expire (now deadline : ExpireAt) {s : Slot} (h : s.WellFormed) :
    (Slot.expire now deadline s).2.WellFormed := by
  cases s with
  | none => exact wellFormed_none
  | some entry =>
      unfold Slot.expire
      dsimp only
      split_ifs
      · exact wellFormed_none
      · exact wellFormed_some (h entry rfl)

theorem wellFormed_persist {s : Slot} (h : s.WellFormed) : (Slot.persist s).2.WellFormed := by
  unfold Slot.persist
  split
  · rename_i v t
    exact wellFormed_some (h ⟨v, some t⟩ rfl :)
  · exact h

end Slot

def Keyspace.WellFormed (ks : Keyspace) : Prop := ∀ k, (ks k).WellFormed

theorem Keyspace.WellFormed.on {ks : Keyspace} (h : ks.WellFormed) (k : Bytes)
    {slot : Slot → Frame × Slot} (hs : (ks k).WellFormed → (slot (ks k)).2.WellFormed) :
    ((Transaction.on k slot).run ks).2.WellFormed := by
  intro k'
  simp only [Transaction.run, Function.update_apply]
  split_ifs
  · exact hs (h k)
  · exact h k'

namespace Command

theorem answerable_of_mem {args : List Bytes} (h : argsLen args ≤ maxBufferedFrameBytes) {a : Bytes}
    (ha : a ∈ args) : Answerable a := by
  have hle : bulkLen a.length ≤ argsLen args :=
    List.single_le_sum (fun _ _ => Nat.zero_le _) _ (List.mem_map_of_mem ha)
  exact (bulkResponseFits_iff _).mpr (hle.trans h)

theorem mem_of_mem_pairUp {args : List Bytes} {p : Bytes × Bytes} (h : p ∈ pairUp args) :
    p.2 ∈ args := by
  induction args using pairUp.induct with
  | case1 a b rest ih =>
      rcases List.mem_cons.mp h with rfl | h
      · exact List.mem_cons_of_mem _ List.mem_cons_self
      · exact List.mem_cons_of_mem _ (List.mem_cons_of_mem _ (ih h))
  | case2 args hargs =>
      rw [pairUp.eq_2 args hargs] at h
      cases h

/-- What a command adds to a container: something, and all of it answerable. -/
def FillsContainers : Command → Prop
  | lpush _ vs | rpush _ vs => vs ≠ [] ∧ ∀ v ∈ vs, Answerable v
  | hset _ pairs => pairs ≠ [] ∧ ∀ p ∈ pairs, Answerable p.2
  | _ => True

theorem FromClient.args {c : Command} (h : c.FromClient) :
    ∃ now name args, fromArgs now name args = .ok c ∧ ∀ a ∈ args, Answerable a := by
  have hr := h.request
  cases hr with
  | intro now hr => cases hr with
    | intro name hr => cases hr with
      | intro args hr =>
          have hlen : argsLen args ≤ maxBufferedFrameBytes :=
            ((Nat.le_add_left _ _).trans (Nat.le_add_left _ _)).trans hr.2.2
          exact ⟨now, name, args, hr.1, fun a => answerable_of_mem hlen⟩

theorem FromClient.fillsContainers {c : Command} (h : c.FromClient) : c.FillsContainers := by
  obtain ⟨now, name, args, hargs, hfit⟩ := h.args
  cases c with
  | lpush k vs | rpush k vs =>
      cases readFrom_of_fromArgs hargs rfl
      exact ⟨List.cons_ne_nil _ _, fun v hv => hfit v (List.mem_cons_of_mem k hv)⟩
  | hset k pairs =>
      cases readFrom_of_fromArgs hargs rfl with
      | @hset _ args hlen _ =>
          constructor
          · match args, hlen with
            | a :: b :: args, _ => exact List.cons_ne_nil _ _
          · exact fun p hp => hfit p.2 (List.mem_cons_of_mem k (mem_of_mem_pairUp hp))
  | _ => trivial

/-- A client's transaction keeps stored values well formed. -/
theorem transaction_wellFormed {now : ExpireAt} {c : Command} {t : Transaction}
    (hc : c.FillsContainers) (ht : c.transaction now = some t) {ks : Keyspace}
    (h : ks.WellFormed) : (t.run ks).2.WellFormed := by
  have incr_ : ∀ delta k, ((Transaction.on k
      (Slot.update (.string zeroBytes) (incrValue delta))).run ks).2.WellFormed := by
    intro delta k
    refine h.on k (Slot.wellFormed_update fun v hv => wellFormed_incrValue delta ?_)
    rcases hv with hv | rfl
    · exact hv
    · exact answerable_number 0
  cases c with
  | set key value e =>
      obtain rfl := Option.some.inj ht
      split_ifs with hf
      · exact h.on key fun _ => Slot.wellFormed_some hf
      · exact h
  | del keys =>
      obtain rfl := Option.some.inj ht
      intro k
      simp only [Transaction.run, Keyspace.removeAll_apply]
      split_ifs
      · exact Slot.wellFormed_none
      · exact h k
  | mset pairs =>
      obtain rfl := Option.some.inj ht
      split_ifs with hf
      · exact h
      · intro k
        simp only [Transaction.run, Keyspace.setAll_apply]
        cases ha : assignedValue k pairs with
        | none => exact h k
        | some v =>
            have hv : ¬ (!bulkResponseFits v.length) = true := fun hn =>
              hf (List.any_eq_true.mpr ⟨_, assignedValue_mem ha, hn⟩)
            rw [Bool.not_eq_true, Bool.not_eq_false'] at hv
            exact Slot.wellFormed_some hv
  | incr k | decr k | incrBy k n =>
      obtain rfl := Option.some.inj ht
      exact incr_ _ _
  | decrBy k n =>
      obtain rfl := Option.some.inj ht
      cases checkedNegI64 n with
      | some neg => exact incr_ _ _
      | none => exact h
  | append k v =>
      obtain rfl := Option.some.inj ht
      refine h.on k (Slot.wellFormed_update fun v' hv => wellFormed_appendValue v ?_)
      rcases hv with hv | rfl
      · exact hv
      · exact (by decide : bulkResponseFits 0 = true)
  | expire k d | pexpire k d | pexpireAt k d =>
      obtain rfl := Option.some.inj ht
      exact h.on k (Slot.wellFormed_expire now d)
  | persist k =>
      obtain rfl := Option.some.inj ht
      exact h.on k Slot.wellFormed_persist
  | lpush k vs | rpush k vs =>
      obtain rfl := Option.some.inj ht
      exact h.on k (Slot.wellFormed_update fun v hv => wellFormed_pushValue hc.1 hc.2 _ hv)
  | lpop k count | rpop k count =>
      obtain rfl := Option.some.inj ht
      exact h.on k (Slot.wellFormed_takeFrom fun v v' hv hv' => wellFormed_popValue count _ hv hv')
  | hset k pairs =>
      obtain rfl := Option.some.inj ht
      exact h.on k (Slot.wellFormed_update fun v hv => wellFormed_hsetValue hc.1 hc.2 hv)
  | hdel k fs =>
      obtain rfl := Option.some.inj ht
      exact h.on k (Slot.wellFormed_takeFrom fun v v' hv hv' => wellFormed_hdelValue fs hv hv')
  | hincrby k f n =>
      obtain rfl := Option.some.inj ht
      exact h.on k (Slot.wellFormed_update fun v hv => wellFormed_hincrbyValue f n hv)
  | _ => cases ht

end Command

namespace Db

/-- The databases that a server can be in whose commands all come from clients. -/
inductive Served : Db host → Prop where
  | new : Served new
  | apply {db : Db host} (h : Served db) (now : ExpireAt) {c : Command} (hc : c.FromClient) :
      Served (c.apply now db).2
  | sweep {db : Db host} (h : Served db) (now : ExpireAt) : Served (db.sweepOnce now)
  | rollback {old db : Db host} (ho : Served old) (h : Served db) (keys : List Bytes) :
      Served (db.restoreEntries (old.snapshotEntries keys))

theorem Served.reachable {db : Db host} (h : db.Served) : db.Reachable := by
  induction h with
  | new => exact .new
  | apply _ now _ ih => exact .apply ih now _
  | sweep _ now ih => exact .sweep ih now
  | rollback _ _ keys iho ih => exact .rollback iho ih keys

/-- Everything stored is well formed, whether or not it has expired. -/
theorem Served.wellFormed {db : Db host} (h : db.Served) : Keyspace.WellFormed db.entry := by
  induction h with
  | new => exact fun _ => Slot.wellFormed_none
  | @apply db _ now c hc ih =>
      have hr := c.apply_refines now db
      cases ht : c.transaction now with
      | none =>
          rw [ht] at hr
          rw [entry_of_shards hr]
          exact ih
      | some t =>
          rw [ht] at hr
          intro k
          have hview : Keyspace.WellFormed (db.view now) := fun k entry he =>
            ih k entry (Slot.alive_eq_some.mp he).1
          rcases hr.stored k with hk | hk
          · rw [hk]
            exact ih k
          · rw [hk]
            exact Command.transaction_wellFormed hc.fillsContainers ht hview k
  | @sweep db hdb now ih =>
      rw [entry_sweepOnce hdb.reachable.valid now]
      exact fun k entry he => ih k entry (Slot.alive_eq_some.mp he).1
  | @rollback old db _ _ keys iho ih =>
      intro k
      rw [entry_restore_snapshot old db keys k]
      split_ifs
      · exact iho k
      · exact ih k

end Db
end MiniRedis
