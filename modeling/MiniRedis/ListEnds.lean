import MiniRedis.ReplayAgreement
import MiniRedis.ResponseLimit

/-!
# The two ends of a list

A push adds its values at one end and a pop takes values off one end, in the order of
the pops. A key without a list counts as one with the empty list, and the key goes when
its list becomes empty, unless the reply of the pop would exceed the limit.
-/
namespace MiniRedis
open Wire Cmd

variable {host : Host}

/-- The slot of a list. The empty list has none. -/
def listSlot (list : List Bytes) (deadline : Option ExpireAt) : Slot :=
  if list = [] then none else some ⟨.list list, deadline⟩

theorem listSlot_of_ne {list : List Bytes} (h : list ≠ []) (deadline : Option ExpireAt) :
    listSlot list deadline = some ⟨.list list, deadline⟩ := if_neg h

theorem listSlot_eq_none {list : List Bytes} {deadline : Option ExpireAt} :
    listSlot list deadline = none ↔ list = [] := by
  unfold listSlot
  split_ifs with h <;> simp [h]

/-- Whether a slot is alive is for its deadline to say, not for its list. -/
theorem alive_listSlot {now : ExpireAt} {list rest : List Bytes} {deadline : Option ExpireAt}
    (h : (listSlot list deadline).alive now = listSlot list deadline) (hne : list ≠ []) :
    (listSlot rest deadline).alive now = listSlot rest deadline := by
  rw [listSlot_of_ne hne, Slot.alive_eq_some] at h
  by_cases hr : rest = []
  · rw [hr]
    rfl
  · rw [listSlot_of_ne hr]
    exact Slot.alive_eq_some.mpr ⟨rfl, h.2⟩

/-- A list with values pushed at one end. -/
def pushed (side : PushSide) (values list : List Bytes) : List Bytes :=
  match side with
  | .left => values.reverse ++ list
  | .right => list ++ values

theorem foldl_pushOne (side : PushSide) (values list : List Bytes) :
    values.foldl (pushOne side) list = pushed side values list := by
  induction values generalizing list with
  | nil => cases side <;> simp [pushed]
  | cons v values ih =>
      rw [List.foldl_cons, ih]
      cases side <;> simp [pushed, pushOne]

theorem length_pushed (side : PushSide) (values list : List Bytes) :
    (pushed side values list).length = list.length + values.length := by
  cases side <;> simp [pushed, Nat.add_comm]

/-- What a pop finds at its end of the list is what it takes and what it leaves. -/
theorem popped_unpopped (side : PopSide) (n : ℕ) (list : List Bytes) :
    (match side with
      | .left => popped side n list ++ unpopped side n list
      | .right => unpopped side n list ++ (popped side n list).reverse) = list := by
  cases side with
  | left => exact List.take_append_drop n list
  | right =>
      simp only [popped, unpopped, ← List.reverse_append, List.take_append_drop,
        List.reverse_reverse]

namespace Cmd
variable {now : ExpireAt} {db : Db host} {key : Bytes} {list : List Bytes}
  {deadline : Option ExpireAt}

theorem push_changes (hl : db.view now key = listSlot list deadline) (values : List Bytes)
    (side : PushSide) :
    (push now db key values side).1 = .integer (Int64.ofNat (list.length + values.length)) ∧
      db.Changes (push now db key values side).2 key (some ⟨.list (pushed side values list),
        if list = [] then none else deadline⟩) := by
  obtain ⟨hr, hc⟩ := db.locked_acts (acts_update_container now key (.list [])
    (pushValue values side))
  have hslot : (listSlot list deadline).getD ⟨.list [], none⟩ =
      ⟨.list list, if list = [] then none else deadline⟩ := by
    unfold listSlot
    split_ifs with hempty
    · rw [hempty]
      rfl
    · rfl
  rw [hl, Slot.update, hslot] at hr hc
  simp only [pushValue, foldl_pushOne, length_pushed] at hr hc
  exact ⟨hr, hc⟩

/-- The reply of a pop that takes these elements. -/
def popAnswer (count : Option ℕ) (list taken : List Bytes) : Frame :=
  if list = [] then Command.popMissing count else popReply count taken

theorem popped_single (side : PopSide) {list : List Bytes} (hne : list ≠ []) :
    ∃ v ∈ list, popped side 1 list = [v] := by
  cases side with
  | left =>
      cases list with
      | nil => exact (hne rfl).elim
      | cons v list => exact ⟨v, List.mem_cons_self, rfl⟩
  | right =>
      obtain ⟨init, v, rfl⟩ := List.eq_nil_or_concat list |>.resolve_left hne
      exact ⟨v, by simp, by simp [popped]⟩

theorem unpopped_zero (side : PopSide) (list : List Bytes) : unpopped side 0 list = list := by
  cases side <;> simp [unpopped]

theorem popped_zero (side : PopSide) (list : List Bytes) : popped side 0 list = [] := by
  cases side <;> rfl

/-- The value that a pop leaves, if it leaves one, is the slot of the rest. -/
theorem map_rest (rest : List Bytes) (deadline : Option ExpireAt) :
    ((if rest.isEmpty then none else some (Value.list rest)).map
      fun value => (⟨value, deadline⟩ : Entry)) = listSlot rest deadline := by
  unfold listSlot
  simp only [List.isEmpty_iff]
  split_ifs <;> rfl

/-- A pop on a list that is not empty. -/
theorem popValue_eq (deadline : Option ExpireAt) (count : Option ℕ) (side : PopSide)
    (hne : list ≠ []) (hv : count = none → ∀ v ∈ list, Answerable v) :
    (popValue count side (.list list)).1 =
        limited (popReply count (popped side (count.getD 1) list)) ∧
      ((popValue count side (.list list)).2.map fun value => (⟨value, deadline⟩ : Entry)) =
        listSlot (if Fits (popReply count (popped side (count.getD 1) list))
          then unpopped side (count.getD 1) list else list) deadline := by
  have hpos : 0 < list.length := List.length_pos_iff.mpr hne
  cases count with
  | none =>
      obtain ⟨v, hmem, hpop⟩ := popped_single side hne
      have hmin : min 1 list.length = 1 := Nat.min_eq_left hpos
      have hfits : Fits (popReply none (popped side 1 list)) := by
        rw [hpop]
        exact Fits.bulk (hv rfl v hmem)
      simp only [popValue, Option.getD_none, hmin, one_ne_zero, if_false, Option.isSome_none,
        Bool.false_and, Bool.false_eq_true, popLoop_popped, popLoop_unpopped]
      rw [if_pos hfits, limited_of_fits hfits]
      exact ⟨rfl, map_rest _ deadline⟩
  | some n =>
      have hreply : popReply (some n) (popped side n list) =
          .array ((popped side n list).map .bulk) := by
        cases popped side n list <;> rfl
      rw [Option.getD_some, hreply, ← popped_min, ← unpopped_min]
      simp only [popValue, Option.getD_some, Option.isSome_some, Bool.true_and,
        popArrayResponseTooLarge_iff (Nat.min_le_right n list.length), popLoop_popped,
        popLoop_unpopped]
      generalize min n list.length = m
      by_cases hm : m = 0
      · rw [if_pos hm, hm, popped_zero, unpopped_zero, ite_self]
        exact ⟨(limited_of_fits Fits.emptyArray).symm, (listSlot_of_ne hne deadline).symm⟩
      · rw [if_neg hm]
        by_cases hfits : Fits (.array ((popped side m list).map .bulk))
        · rw [if_neg (not_not_intro hfits), if_pos hfits, limited_of_fits hfits]
          refine ⟨?_, map_rest _ deadline⟩
          cases popped side m list <;> rfl
        · rw [if_pos hfits, if_neg hfits, limited_of_not_fits hfits]
          exact ⟨rfl, (listSlot_of_ne hne deadline).symm⟩

/-- What a pop leaves under its key: the rest if the reply fits, and else the whole list. -/
def popLeaves (count : Option ℕ) (side : PopSide) (list : List Bytes) : List Bytes :=
  if Fits (popAnswer count list (popped side (count.getD 1) list))
  then unpopped side (count.getD 1) list else list

theorem pop_changes (hl : db.view now key = listSlot list deadline) (count : Option ℕ)
    (side : PopSide) (hv : count = none → ∀ v ∈ list, Answerable v) :
    (pop now db key count side).1 =
        limited (popAnswer count list (popped side (count.getD 1) list)) ∧
      db.Changes (pop now db key count side).2 key
        (listSlot (popLeaves count side list) deadline) := by
  obtain ⟨hr, hc⟩ := db.locked_acts (acts_takeFrom now key (Command.popMissing count)
    (popValue count side))
  have hpop : pop now db key count side =
      db.locked key fun shard => takeFrom (removeIfExpired now shard key) key
        (Command.popMissing count) (popValue count side) := by
    cases count <;> rfl
  rw [hpop, popLeaves]
  rw [hl] at hr hc
  by_cases hne : list = []
  · subst hne
    have hnil : ∀ n, popped side n [] = [] ∧ unpopped side n [] = [] := by
      intro n
      cases side <;> simp [popped, unpopped]
    rw [(hnil _).2, ite_self, popAnswer, if_pos rfl,
      limited_of_fits (Command.fits_popMissing count)]
    exact ⟨hr, hc⟩
  · obtain ⟨hvr, hvs⟩ := popValue_eq deadline count side hne hv
    rw [listSlot_of_ne hne] at hr hc
    rw [popAnswer, if_neg hne]
    refine ⟨hr.trans hvr, ?_⟩
    rw [← hvs]
    exact hc

end Cmd

namespace Db

/-- The run of a pop on a list, which takes some elements off it and leaves the others. -/
structure Pops (now : ExpireAt) (db : Db host) (r : Frame × Db host) (key : Bytes)
    (list : List Bytes) (deadline : Option ExpireAt) (count : Option ℕ)
    (taken rest : List Bytes) : Prop where
  length : taken.length = min (count.getD 1) list.length
  answered : Fits (popAnswer count list taken) →
    r.1 = popAnswer count list taken ∧ Becomes now db r.2 key (listSlot rest deadline) ∧
      ((r.2.entry key = none ∧ ∀ i t, key ∉ (r.2.shards i).index t) ↔ rest = [])
  refused : ¬ Fits (popAnswer count list taken) →
    list ≠ [] ∧ r.1 = responseTooLarge ∧ Becomes now db r.2 key (listSlot list deadline)

variable {now : ExpireAt} {db : Db host} {key : Bytes} {list : List Bytes}
  {deadline : Option ExpireAt}

theorem alive_of_view (hl : db.view now key = listSlot list deadline) :
    (listSlot list deadline).alive now = listSlot list deadline := by
  rw [← hl]
  exact congrFun (view_alive_self now db) key

theorem push_becomes (hvalid : db.Valid) (hl : db.view now key = listSlot list deadline)
    (vs : List Bytes) (side : PushSide) :
    (push now db key vs side).1 = .integer (Int64.ofNat (list.length + vs.length)) ∧
      Becomes now db (push now db key vs side).2 key
        (some ⟨.list (pushed side vs list), if list = [] then none else deadline⟩) := by
  obtain ⟨hr, hc⟩ := push_changes hl vs side
  refine ⟨hr, hc.becomes hvalid ?_⟩
  by_cases hne : list = []
  · rw [if_pos hne]
    exact Slot.alive_of_persistent rfl
  · have hlive := alive_of_view hl
    rw [listSlot_of_ne hne, Slot.alive_eq_some] at hlive
    rw [if_neg hne]
    exact Slot.alive_eq_some.mpr ⟨rfl, hlive.2⟩

theorem pop_pops (hvalid : db.Valid) (hl : db.view now key = listSlot list deadline)
    (count : Option ℕ) (side : PopSide) (hv : count = none → ∀ v ∈ list, Answerable v) :
    Pops now db (pop now db key count side) key list deadline count
      (popped side (count.getD 1) list) (unpopped side (count.getD 1) list) := by
  obtain ⟨hr, hc⟩ := pop_changes hl count side hv
  have hleaves : (listSlot (popLeaves count side list) deadline).alive now =
      listSlot (popLeaves count side list) deadline := by
    by_cases hne : list = []
    · have hnil : popLeaves count side list = [] := by
        rw [popLeaves, hne]
        cases side <;> simp [unpopped]
      rw [hnil]
      rfl
    · exact alive_listSlot (alive_of_view hl) hne
  have hb := hc.becomes hvalid hleaves
  refine ⟨by cases side <;> simp [popped], fun hf => ?_, fun hf => ?_⟩
  · rw [popLeaves, if_pos hf] at hb
    exact ⟨hr.trans (limited_of_fits hf), hb, hb.gone_iff.trans listSlot_eq_none⟩
  · rw [popLeaves, if_neg hf] at hb
    refine ⟨fun hne => hf ?_, hr.trans (limited_of_not_fits hf), hb⟩
    rw [popAnswer, if_pos hne]
    exact Command.fits_popMissing count

/-- A pop of as many elements as were pushed at its end. -/
theorem pop_pushed (hvalid : db.Valid) (hl : db.view now key = listSlot list deadline)
    {vs : List Bytes} (hne : vs ≠ []) (hf : Fits (.array (vs.reverse.map .bulk))) :
    let r := pop now (push now db key vs .left).2 key (some vs.length) .left
    r.1 = .array (vs.reverse.map .bulk) ∧ r.2.view now = db.view now := by
  obtain ⟨-, hc⟩ := push_changes hl vs .left
  obtain ⟨-, hb⟩ := push_becomes hvalid hl vs .left
  have hlist : pushed .left vs list ≠ [] := by
    simp [pushed, hne]
  have hslot : (push now db key vs .left).2.view now key =
      listSlot (pushed .left vs list) (if list = [] then none else deadline) := by
    rw [hb.view, Function.update_self, listSlot_of_ne hlist]
  have htaken : popped .left vs.length (pushed .left vs list) = vs.reverse := by
    rw [popped, pushed, ← List.length_reverse, List.take_left']
    rfl
  have hrest : unpopped .left vs.length (pushed .left vs list) = list := by
    rw [unpopped, pushed, ← List.length_reverse, List.drop_left']
    rfl
  have hp := pop_pops (hc.valid hvalid) hslot (some vs.length) .left fun hn => by cases hn
  have hanswer : popAnswer (some vs.length) (pushed .left vs list)
      (popped .left vs.length (pushed .left vs list)) = .array (vs.reverse.map .bulk) := by
    rw [popAnswer, if_neg hlist, htaken]
    cases vs.reverse <;> rfl
  have hp := hp.answered (by rw [Option.getD_some, hanswer]; exact hf)
  rw [Option.getD_some, hanswer, hrest] at hp
  refine ⟨hp.1, ?_⟩
  have hback : listSlot list (if list = [] then none else deadline) = db.view now key := by
    rw [hl]
    unfold listSlot
    split_ifs <;> rfl
  rw [hp.2.1.view, hb.view, Function.update_idem, hback, Function.update_eq_self]

/-- Pushes and pops lose no element of a list, have none twice and keep the order. -/
theorem Served.list_ends {db : Db host} (h : db.Served) {now : ExpireAt} {key : Bytes}
    {list : List Bytes} {deadline : Option ExpireAt}
    (hl : db.view now key = listSlot list deadline) :
    (∀ vs, let r := (Command.lpush key vs).apply now db
      r.1 = .integer (Int64.ofNat (list.length + vs.length)) ∧
        Becomes now db r.2 key
          (some ⟨.list (vs.reverse ++ list), if list = [] then none else deadline⟩)) ∧
    (∀ vs, let r := (Command.rpush key vs).apply now db
      r.1 = .integer (Int64.ofNat (list.length + vs.length)) ∧
        Becomes now db r.2 key
          (some ⟨.list (list ++ vs), if list = [] then none else deadline⟩)) ∧
    (∀ count : Option ℕ, let n := count.getD 1
      list.take n ++ list.drop n = list ∧
        Pops now db ((Command.lpop key count).apply now db) key list deadline count
          (list.take n) (list.drop n)) ∧
    (∀ count : Option ℕ, let n := count.getD 1
      list.take (list.length - n) ++ (list.reverse.take n).reverse = list ∧
        Pops now db ((Command.rpop key count).apply now db) key list deadline count
          (list.reverse.take n) (list.take (list.length - n))) ∧
    ∀ vs, vs ≠ [] → Fits (.array (vs.reverse.map .bulk)) →
      let r := (Command.lpop key (some vs.length)).apply now
        ((Command.lpush key vs).apply now db).2
      r.1 = .array (vs.reverse.map .bulk) ∧ r.2.view now = db.view now := by
  have hvalid := h.reachable.valid
  have hv : ∀ v ∈ list, Answerable v := by
    intro v hmem
    have hentry : db.view now key = some ⟨.list list, deadline⟩ :=
      hl.trans (listSlot_of_ne (List.ne_nil_of_mem hmem) deadline)
    exact (h.wellFormed key _ (Slot.alive_eq_some.mp hentry).1).2 v hmem
  have hpush := fun vs side => push_becomes hvalid hl vs side
  have hpop := fun count side => pop_pops hvalid hl count side fun _ => hv
  refine ⟨fun vs => hpush vs .left, fun vs => hpush vs .right,
    fun count => ⟨List.take_append_drop _ list, hpop count .left⟩, fun count => ?_,
    fun vs hne hf => pop_pushed hvalid hl hne hf⟩
  have hrest : ∀ n, unpopped .right n list = list.take (list.length - n) := by
    intro n
    rw [unpopped, List.drop_reverse, List.reverse_reverse]
  dsimp only
  rw [← hrest]
  exact ⟨popped_unpopped .right _ list, hpop count .right⟩

theorem Served.list_ends_two :
    let db : Db Server.oneShard := ((Command.rpush [107] [[97], [98]]).apply 0 Db.new).2
    let r := (Command.rpop [107] none).apply 5 db
    r.1 = .bulk [98] ∧ r.2.entry [107] = some ⟨.list [[97]], none⟩ := by
  intro db r
  have hserved : db.Served := .apply .new 0 <|
    Server.fromClient_of_args 0 [asBytes "RPUSH", [107], [97], [98]] (by decide) (by decide) rfl
  have hl : db.view 5 [107] = listSlot [[97], [98]] none := rfl
  obtain ⟨-, -, -, hrpop, -⟩ := hserved.list_ends hl
  obtain ⟨hr, hb, -⟩ := (hrpop none).2.answered (Fits.bulk (by decide : bulkResponseFits 1 = true))
  exact ⟨hr, by rw [hb.entry, Function.update_self]; rfl⟩

end Db
end MiniRedis
