import MiniRedis.LiveEntries
import MiniRedis.ReplayRun
import MiniRedis.Rereading
import MiniRedis.SnapshotFrames

/-!
# Running the commands of a snapshot

The commands for an entry take an empty slot to that entry, up to the order of a
hash table, and leave every other slot alone. The commands of a whole snapshot do
this for one key after the other.
-/
namespace MiniRedis

/-! ## Equal contents -/

/-- The same string, list, or fields. -/
def Value.Same : Value → Value → Prop
  | .string a, .string b => a = b
  | .list a, .list b => a = b
  | .hash a, .hash b => ∀ f, a.lookup f = b.lookup f
  | _, _ => False

def Slot.Same : Slot → Slot → Prop
  | none, none => True
  | some a, some b => a.value.Same b.value ∧ a.expiresAt = b.expiresAt
  | _, _ => False

def Keyspace.Same (a b : Keyspace) : Prop := ∀ k, (a k).Same (b k)

/-- Entries with the same contents and deadline live equally long. -/
theorem Slot.same_alive {value value' : Value} (h : value.Same value') (now : ExpireAt)
    (expiresAt : Option ExpireAt) :
    Slot.Same (Slot.alive now (some ⟨value, expiresAt⟩))
      (Slot.alive now (some ⟨value', expiresAt⟩)) := by
  cases expiresAt with
  | none => exact ⟨h, rfl⟩
  | some d =>
      rcases Nat.lt_or_ge now d with hd | hd
      · rw [Slot.alive_of_lt rfl hd, Slot.alive_of_lt rfl hd]
        exact ⟨h, rfl⟩
      · rw [Slot.alive_of_le rfl hd, Slot.alive_of_le rfl hd]
        trivial

namespace Cmd

theorem foldl_pushOne_right (values list : List Bytes) :
    values.foldl (pushOne .right) list = list ++ values := by
  induction values generalizing list with
  | nil => simp
  | cons v values ih => rw [List.foldl_cons, ih, pushOne, List.append_assoc, List.singleton_append]

/-- The count in front does not matter to the table. -/
theorem foldl_hsetOne_snd (pairs : List (Bytes × Bytes)) (n : ℕ) (m : HashMap Bytes Bytes) :
    (pairs.foldl hsetOne (n, m)).2 = (pairs.foldl hsetOne (0, m)).2 := by
  induction pairs generalizing n m with
  | nil => rfl
  | cons p pairs ih =>
      rw [List.foldl_cons, List.foldl_cons]
      exact (ih _ _).trans (ih _ _).symm

end Cmd

/-- Where every key is given once, its value is the one that is assigned. -/
theorem assignedValue_of_mem {k v : Bytes} {pairs : List (Bytes × Bytes)}
    (hn : (pairs.map Prod.fst).Nodup) (h : (k, v) ∈ pairs) : assignedValue k pairs = some v := by
  induction pairs with
  | nil => cases h
  | cons p pairs ih =>
      rw [List.map_cons, List.nodup_cons] at hn
      rw [assignedValue]
      rcases List.mem_cons.mp h with hp | hp
      · have hk : assignedValue k pairs = none :=
          assignedValue_eq_none.mpr (by rw [← hp] at hn; exact hn.1)
        rw [hk, ← hp]
        exact if_pos rfl
      · rw [ih hn.2 hp]
        rfl

namespace Aof
open Wire PrefixCode ParserRoundTrip MiniRedis.Command Cmd

variable {host : Host} {now : ExpireAt} {key : Bytes}

/-! ## One slot -/

/-- The commands take the slot of the key from one to the other, and change no other slot. -/
def Leads (host : Host) (now : ExpireAt) (key : Bytes) (commands : List (List Bytes))
    (s s' : Slot) : Prop :=
  ∀ db : Db host, db.view now key = s → ∃ db',
    applyFrames now (commands.map commandFrame) db = some db' ∧
      db'.view now = Function.update (db.view now) key s'

theorem Leads.nil (s : Slot) : Leads host now key [] s s := fun db h =>
  ⟨db, rfl, by rw [← h, Function.update_eq_self]⟩

theorem Leads.append {as bs : List (List Bytes)} {s s' s'' : Slot}
    (ha : Leads host now key as s s') (hb : Leads host now key bs s' s'') :
    Leads host now key (as ++ bs) s s'' := by
  intro db h
  have h₁ := ha db h
  cases h₁ with
  | intro db₁ h₁ =>
      have hs : db₁.view now key = s' := by rw [h₁.2, Function.update_self]
      have h₂ := hb db₁ hs
      cases h₂ with
      | intro db₂ h₂ =>
          refine ⟨db₂, ?_, ?_⟩
          · rw [List.map_append, applyFrames_append, h₁.1]
            exact h₂.1
          · rw [h₂.2, h₁.2, Function.update_idem]

/-- One command that is a transaction on the slot of the key. -/
theorem Leads.of_transaction {args : List Bytes} {c : Command} {slot : Slot → Frame × Slot}
    {s : Slot} (hf : Command.fromFrame now (commandFrame args) = .ok c)
    (ht : c.transaction now = some (.on key slot)) (he : (slot s).1.isError = false) :
    Leads host now key [args] s ((slot s).2.alive now) := by
  intro db h
  have hr := c.apply_refines now db
  rw [ht] at hr
  have hreply : (c.apply now db).1.isError = false := by
    rw [hr.reply]
    simpa only [Transaction.run, h] using he
  refine ⟨_, Option.bind_eq_some_iff.mpr
    ⟨_, applyFrame_eq_some.mpr ⟨c, hf, hreply, rfl⟩, rfl⟩, ?_⟩
  rw [hr.view]
  simp only [Transaction.run, Keyspace.alive_update, Db.view_alive_self, h]

theorem Leads.trans_eq {commands : List (List Bytes)} {s s' s'' : Slot}
    (h : Leads host now key commands s s') (he : s' = s'') : Leads host now key commands s s'' :=
  he ▸ h

/-! ## Building a value -/

/-- Each command of a list updates the value in the slot, from `default` on, without an error. -/
structure Builds {I : Type} (now : ExpireAt) (key : Bytes) (default : Value)
    (args : I → List Bytes) (val : List I → Value) (all : List I) : Prop where
  start : val [] = default
  step : ∀ done i rest, done ++ i :: rest = all → ∃ c body,
    Command.fromFrame now (commandFrame (args i)) = .ok c ∧
      c.transaction now = some (.on key (Slot.update default body)) ∧
      (body (val done)).1.isError = false ∧ (body (val done)).2 = val (done ++ [i])

namespace Builds
variable {I : Type} {default : Value} {args : I → List Bytes} {val : List I → Value} {all : List I}

theorem leads_one (h : Builds now key default args val all) {done rest : List I} {i : I}
    (ha : done ++ i :: rest = all) {s : Slot} (hs : s.getD ⟨default, none⟩ = ⟨val done, none⟩) :
    Leads host now key [args i] s (some ⟨val (done ++ [i]), none⟩) := by
  obtain ⟨c, body, hf, ht, he, hv⟩ := h.step done i rest ha
  have hu : Slot.update default body s =
      ((body (val done)).1, some ⟨val (done ++ [i]), none⟩) := by
    rw [Slot.update, hs, ← hv]
  refine (Leads.of_transaction hf ht ?_).trans_eq ?_
  · rw [hu]
    exact he
  · rw [hu]
    exact Slot.alive_of_persistent rfl

theorem leads_from (h : Builds now key default args val all) {done rest : List I}
    (ha : done ++ rest = all) :
    Leads host now key (rest.map args) (some ⟨val done, none⟩) (some ⟨val all, none⟩) := by
  induction rest generalizing done with
  | nil =>
      rw [List.append_nil] at ha
      rw [ha]
      exact Leads.nil _
  | cons i rest ih =>
      have hone : Leads host now key [args i] (some ⟨val done, none⟩)
          (some ⟨val (done ++ [i]), none⟩) := h.leads_one ha rfl
      rw [← List.singleton_append, ← List.append_assoc] at ha
      exact hone.append (ih ha)

theorem leads (h : Builds now key default args val all) (hne : all ≠ []) :
    Leads host now key (all.map args) none (some ⟨val all, none⟩) := by
  cases all with
  | nil => exact (hne rfl).elim
  | cons i rest =>
      have hone : Leads host now key [args i] none (some ⟨val [i], none⟩) :=
        h.leads_one (List.nil_append (i :: rest)) (by rw [h.start]; rfl)
      exact hone.append (h.leads_from (List.singleton_append (x := i)))

end Builds

theorem fromFrame_append (key chunk : Bytes) :
    Command.fromFrame now (commandFrame [asBytes "APPEND", key, chunk]) =
      .ok (.append key chunk) := (fromFrame_command _ _ _).trans rfl

theorem fromFrame_rpush (key : Bytes) {values : List Bytes} (h : values ≠ []) :
    Command.fromFrame now (commandFrame (runCommand "RPUSH" key elementArgs values)) =
      .ok (.rpush key values) := by
  rw [runCommand, flatMap_elementArgs]
  cases values with
  | nil => exact (h rfl).elim
  | cons v vs => exact (fromFrame_command _ _ _).trans rfl

theorem fromFrame_hset (key : Bytes) {pairs : List (Bytes × Bytes)} (h : pairs ≠ []) :
    Command.fromFrame now (commandFrame (runCommand "HSET" key fieldArgs pairs)) =
      .ok (.hset key pairs) := by
  have hlen := length_flatMap_fieldArgs pairs
  have hpos := List.length_pos_iff.mpr h
  have hpairs : pairUp (pairs.flatMap fieldArgs) = pairs := pairUp_pairArgs pairs
  rw [runCommand, fromFrame_command, ← congrArg (Command.hset key) hpairs]
  refine if_neg ?_
  simp only [List.length_cons]
  omega

theorem appendValue_of_fits {b suffix : Bytes}
    (h : bulkResponseFits (b ++ suffix).length = true) :
    appendValue suffix (.string b) =
      (.integer (Int64.ofNat (b ++ suffix).length), .string (b ++ suffix)) := by
  have hle := (bulkResponseFits_iff _).mp h
  have hlt : (b ++ suffix).length < 2 ^ 64 := by
    unfold bulkLen maxResponseFrameBytes at hle
    omega
  rw [List.length_append] at hlt
  have hadd : checkedAdd b.length suffix.length = some (b ++ suffix).length :=
    usize?_eq_some.mpr ⟨List.length_append.symm, hlt⟩
  simp only [appendValue, hadd, h, if_true]

/-- The empty string and the chunks appended to it. -/
theorem builds_append {chunks : List Bytes} (h : bulkResponseFits chunks.flatten.length = true) :
    Builds now key (.string []) (fun chunk => [asBytes "APPEND", key, chunk])
      (fun done => .string done.flatten) chunks where
  start := rfl
  step := by
    intro done chunk rest ha
    refine ⟨_, appendValue chunk, fromFrame_append key chunk, rfl, ?_⟩
    have hall : chunks.flatten = done.flatten ++ chunk ++ rest.flatten := by
      rw [← ha, List.flatten_append, List.flatten_cons, List.append_assoc]
    have hlen := congrArg List.length hall
    rw [List.length_append] at hlen
    have hfits : bulkResponseFits (done.flatten ++ chunk).length = true :=
      bulkResponseFits_mono (hlen ▸ Nat.le_add_right _ _) h
    rw [appendValue_of_fits hfits, List.flatten_append, List.flatten_singleton]
    exact ⟨rfl, rfl⟩

theorem builds_rpush {runs : List (List Bytes)} (h : ∀ run ∈ runs, run ≠ []) :
    Builds now key (.list []) (runCommand "RPUSH" key elementArgs)
      (fun done => .list done.flatten) runs where
  start := rfl
  step := by
    intro done run rest ha
    have hrun : run ≠ [] := h run (by rw [← ha]; exact List.mem_append_right _ List.mem_cons_self)
    refine ⟨_, pushValue run .right, fromFrame_rpush key hrun, rfl, rfl, ?_⟩
    simp only [pushValue, foldl_pushOne_right, List.flatten_append, List.flatten_singleton]

theorem builds_hset {runs : List (List (Bytes × Bytes))} (h : ∀ run ∈ runs, run ≠ []) :
    Builds now key (.hash ∅) (runCommand "HSET" key fieldArgs)
      (fun done => .hash (done.flatten.foldl hsetOne (0, ∅)).2) runs where
  start := rfl
  step := by
    intro done run rest ha
    have hrun : run ≠ [] := h run (by rw [← ha]; exact List.mem_append_right _ List.mem_cons_self)
    refine ⟨_, hsetValue run, fromFrame_hset key hrun, rfl, rfl, ?_⟩
    simp only [hsetValue, List.flatten_append, List.flatten_singleton, List.foldl_append]
    rw [← foldl_hsetOne_snd run (done.flatten.foldl hsetOne (0, ∅)).1]

/-! ## Entries -/

theorem leads_expiry {value : Value} {expiresAt : Option ExpireAt}
    (h : ∀ d, expiresAt = some d → d ≤ maxExpireAtMs) :
    Leads host now key (expiryCommands key expiresAt) (some ⟨value, none⟩)
      (Slot.alive now (some ⟨value, expiresAt⟩)) := by
  cases expiresAt with
  | none => exact (Leads.nil _).trans_eq (Slot.alive_of_persistent rfl).symm
  | some d =>
      refine (Leads.of_transaction (fromFrame_pexpireAt now key (h d rfl)) rfl rfl).trans_eq ?_
      simp only [Slot.expire]
      split_ifs with hd
      · exact (Slot.alive_of_le rfl hd).symm
      · rfl

theorem mem_sortedFields {values : HashMap Bytes Bytes} {f v : Bytes} :
    (f, v) ∈ sortedFields values ↔ values.lookup f = some v := by
  unfold sortedFields
  rw [List.mem_insertionSort, FiniteMap.lookup_eq_some]
  simp only [List.mem_map, Prod.mk.injEq]
  constructor
  · rintro ⟨e, he, rfl, rfl⟩
    exact he
  · intro h
    exact ⟨⟨f, v⟩, h, rfl, rfl⟩

theorem nodup_sortedFields (values : HashMap Bytes Bytes) :
    ((sortedFields values).map Prod.fst).Nodup := by
  have hperm : ((sortedFields values).map Prod.fst).Perm values.entries.keys := by
    have hmap : (values.entries.map fun e => (e.1, e.2)).map Prod.fst = values.entries.keys := by
      rw [List.map_map]
      rfl
    rw [← hmap]
    exact (List.perm_insertionSort _ _).map _
  exact hperm.nodup_iff.mpr values.nodupKeys

/-- Set one after the other, the sorted fields give the table again. -/
theorem same_sortedFields (values : HashMap Bytes Bytes) :
    (Value.hash ((sortedFields values).foldl hsetOne (0, ∅)).2).Same (.hash values) := by
  intro f
  have hempty : (∅ : HashMap Bytes Bytes).lookup f = none := rfl
  rw [lookup_foldl_hsetOne, hempty, Option.or_none]
  cases hv : values.lookup f with
  | some v => exact assignedValue_of_mem (nodup_sortedFields values) (mem_sortedFields.mpr hv)
  | none =>
      rw [assignedValue_eq_none]
      intro hf
      obtain ⟨⟨f', v⟩, hm, rfl⟩ := List.mem_map.mp hf
      rw [mem_sortedFields.mp hm] at hv
      cases hv

theorem commandRuns_spec {A : Type} {name : String} {itemArgs : A → List Bytes} {items : List A}
    {runs : List (List A)} (h : commandRuns name key itemArgs items = some runs) :
    runs.flatten = items ∧ ∀ run ∈ runs, run ≠ [] :=
  ⟨GreedyPacking.pack_flatten h, fun run hr => (GreedyPacking.pack_fits h run hr).1⟩

/-- A slot in which the value was built and then given its deadline. -/
theorem Leads.expiry {commands : List (List Bytes)} {value : Value} {expiresAt : Option ExpireAt}
    (h : Leads host now key commands none (some ⟨value, none⟩))
    (hd : ∀ d, expiresAt = some d → d ≤ maxExpireAtMs) :
    Leads host now key (commands ++ expiryCommands key expiresAt) none
      (Slot.alive now (some ⟨value, expiresAt⟩)) := h.append (leads_expiry hd)

theorem leads_set {value : Bytes} {expiresAt : Option ExpireAt}
    (hd : ∀ d, expiresAt = some d → d ≤ maxExpireAtMs) (hpos : ∀ d, expiresAt = some d → 0 < d)
    (hfits : bulkResponseFits value.length = true) :
    Leads host now key [asBytes "SET" :: key :: value :: expiryOption expiresAt] none
      (Slot.alive now (some ⟨.string value, expiresAt⟩)) := by
  have hread : Command.fromFrame now
      (commandFrame (asBytes "SET" :: key :: value :: expiryOption expiresAt)) =
        .ok (.set key value expiresAt) := by
    cases expiresAt with
    | none => exact (fromFrame_command _ _ _).trans rfl
    | some d => exact fromFrame_setPxat now key value (hd d rfl) (hpos d rfl)
  have ht : (Command.set key value expiresAt).transaction now =
      some (.on key fun _ => (.simple "OK", some ⟨.string value, expiresAt⟩)) :=
    congrArg some (if_pos hfits)
  exact Leads.of_transaction hread ht rfl

/-- The commands for an entry make it out of an empty slot. -/
theorem Commands.leads {entry : Entry} {commands : List (List Bytes)}
    (h : Commands key entry commands) (hs : Storable entry) :
    ∃ value, value.Same entry.value ∧
      Leads host now key commands none (Slot.alive now (some ⟨value, entry.expiresAt⟩)) := by
  have hd := hs.fits
  have hw := hs.wellFormed
  cases h with
  | @set value expiresAt => exact ⟨.string value, rfl, leads_set hd hs.positive hw⟩
  | @append value expiresAt chunks hflat =>
      have hfits : bulkResponseFits chunks.flatten.length = true := by rw [hflat]; exact hw
      have hnone : ∀ d : ExpireAt, none = some d → d ≤ maxExpireAtMs ∧ 0 < d :=
        fun d hn => by cases hn
      have hset : Leads host now key [[asBytes "SET", key, []]] none
          (Slot.alive now (some ⟨.string [], none⟩)) :=
        leads_set (fun d hn => (hnone d hn).1) (fun d hn => (hnone d hn).2)
          (by decide : bulkResponseFits 0 = true)
      have hempty := hset.trans_eq (Slot.alive_of_persistent rfl)
      have hchunks : Leads host now key (chunks.map fun chunk => [asBytes "APPEND", key, chunk])
          (some ⟨.string [], none⟩) (some ⟨.string chunks.flatten, none⟩) :=
        (builds_append hfits).leads_from (List.nil_append chunks)
      exact ⟨.string chunks.flatten, hflat, (hempty.append hchunks).expiry hd⟩
  | @rpush values expiresAt runs hruns =>
      have hspec := commandRuns_spec hruns
      have hne : runs ≠ [] := fun hn => hw.1 (by rw [← hspec.1, hn]; rfl)
      exact ⟨.list runs.flatten, hspec.1, ((builds_rpush hspec.2).leads hne).expiry hd⟩
  | @hset values expiresAt runs hruns =>
      have hspec := commandRuns_spec hruns
      have hne : runs ≠ [] := by
        intro hn
        have hfields : sortedFields values = [] := by rw [← hspec.1, hn]; rfl
        refine hw.1 (List.eq_nil_iff_forall_not_mem.mpr fun e he => ?_)
        have hm := mem_sortedFields.mpr (FiniteMap.lookup_mem he)
        rw [hfields] at hm
        cases hm
      refine ⟨_, ?_, ((builds_hset hspec.2).leads hne).expiry hd⟩
      rw [hspec.1]
      exact same_sortedFields values

/-! ## Snapshots -/

/-- The commands of a snapshot make its entries, where their keys are missing. -/
theorem Snapshot.applied {entries : List (Bytes × Entry)} {commands : List (List Bytes)}
    (h : Snapshot entries commands) (hs : ∀ e ∈ entries, Storable e.2)
    (hn : (entries.map Prod.fst).Nodup) (db : Db host)
    (hempty : ∀ e ∈ entries, db.view now e.1 = none) :
    ∃ db', applyFrames now (commands.map commandFrame) db = some db' ∧
      (∀ e ∈ entries, (db'.view now e.1).Same (Slot.alive now (some e.2))) ∧
      ∀ k, k ∉ entries.map Prod.fst → db'.view now k = db.view now k := by
  induction h generalizing db with
  | nil => exact ⟨db, rfl, List.forall_mem_nil _, fun _ _ => rfl⟩
  | @cons key entry entries commands rest hc hsnap ih =>
      have hall := List.forall_mem_cons.mp hs
      have hfree := List.forall_mem_cons.mp hempty
      rw [List.map_cons, List.nodup_cons] at hn
      obtain ⟨value, hsame, hleads⟩ : ∃ value, _ ∧ Leads host now _ _ _ _ := hc.leads hall.1
      obtain ⟨db₁, ha₁, hv₁⟩ := hleads db hfree.1
      have hother : ∀ k, k ≠ key → db₁.view now k = db.view now k := fun k hk => by
        rw [hv₁, Function.update_of_ne hk]
      have hne : ∀ e ∈ entries, e.1 ≠ key := fun e he hk =>
        hn.1 (List.mem_map.mpr ⟨e, he, hk⟩)
      obtain ⟨db₂, ha₂, hin, hout⟩ := ih hall.2 hn.2 db₁ fun e he => by
        rw [hother e.1 (hne e he), hfree.2 e he]
      refine ⟨db₂, ?_, List.forall_mem_cons.mpr ⟨?_, hin⟩, ?_⟩
      · rw [List.map_append, applyFrames_append, ha₁]
        exact ha₂
      · rw [hout key hn.1, hv₁, Function.update_self]
        exact Slot.same_alive hsame now entry.expiresAt
      · intro k hk
        rw [List.map_cons, List.mem_cons, not_or] at hk
        rw [hout k hk.2, hother k hk.1]

end Aof
end MiniRedis
