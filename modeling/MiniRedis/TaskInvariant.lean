import MiniRedis.Clients
import MiniRedis.CommandFootprints
import Mathlib.Data.Fintype.Defs

/-!
# The invariant of a connection task

The database is compared with the one that the settled calls lead to. They agree but for
the keys of a write that is at work, and there the database is ahead by the sections that
the write has run. A read that is half done has seen what the settled calls have left.
-/
namespace MiniRedis.Clients
open AtomicPrograms Linearization Db

variable {host : Host} {Call : Type}

namespace Request

def footprint (host : Host) : Request → Set Location
  | command cmd => cmd.footprint host
  | info _ _ section_ =>
      {l | infoIncludes section_ "memory" = true ∧ ∃ i key, l = .slot i key}
  | pubsub _ => {.pubsub}

theorem within_sections (r : Request) :
    (r.sections : Sections host).Within SameAt (r.footprint host) := by
  cases r with
  | command cmd => exact cmd.within_sections
  | info aof state section_ => exact Cmd.within_infoSections aof state section_
  | pubsub act =>
      exact Cmd.within_pubsub (fun _ => rfl) fun db db' h => ⟨congrArg act h, rfl⟩

theorem footprint_write {r : Request} (h : r.isWrite = true) :
    r.footprint host = slots host r.mutatedKeys := by
  cases r with
  | command cmd => exact Command.footprint_write h
  | info aof state section_ => cases h
  | pubsub act => cases h

theorem pubsub_not_mem_info (section_ : Option String) : Location.pubsub ∉
    {l | infoIncludes section_ "memory" = true ∧ ∃ i key, l = .slot i key} := by
  rintro ⟨_, i, key, h⟩
  cases h

/-- The request changes nothing and does not look at the pub/sub table. -/
structure OnlyReads (host : Host) (r : Request) : Prop where
  readOnly : (r.sections : Sections host).ReadOnly
  pubsub : .pubsub ∉ r.footprint host

/-- A step on the pub/sub table. -/
structure OnPubsub (f : Db host → Frame × Db host) : Prop where
  shards : ∀ db, (f db).2.shards = db.shards
  congr : ∀ db db', db.pubsub = db'.pubsub →
    (f db).2.pubsub = (f db').2.pubsub ∧ (f db).1 = (f db').1

/-- A request that does not take the gate reads only, or it is one step on the pub/sub table. -/
theorem unguarded_cases {r : Request} (h : r.isWrite = false) :
    r.OnlyReads host ∨
      ∃ f : Db host → Frame × Db host, r.sections = Cmd.once (fun _ db => f db) ∧ OnPubsub f := by
  cases r with
  | pubsub act =>
      exact Or.inr ⟨_, rfl, fun _ => rfl, fun db db' h => ⟨congrArg act h, rfl⟩⟩
  | info aof state section_ =>
      exact Or.inl ⟨Cmd.readOnly_infoSections aof state section_, pubsub_not_mem_info section_⟩
  | command cmd =>
      by_cases hp : ∃ ch msg, cmd = .publish ch msg
      · rcases hp with ⟨ch, msg, rfl⟩
        exact Or.inr ⟨_, rfl, fun db => Cmd.shards_publish db ch, Cmd.publish_congr ch⟩
      · have hp' : ∀ ch msg, cmd ≠ .publish ch msg := fun ch msg heq => hp ⟨ch, msg, heq⟩
        refine Or.inl ⟨Command.readOnly_sections h hp', ?_⟩
        by_cases hi : ∃ section_, cmd = .info section_
        · rcases hi with ⟨section_, rfl⟩
          exact pubsub_not_mem_info section_
        · have hi' : ∀ section_, cmd ≠ .info section_ := fun section_ heq => hi ⟨section_, heq⟩
          change _ ∉ cmd.footprint host
          rw [Command.footprint_read h hp' hi']
          rintro ⟨key, _, heq⟩
          cases heq

/-- A key that the request does not look at is not in its footprint. -/
theorem apart_of_reads {r : Request} (h : r.isWrite = false) {key : Bytes}
    (hr : r.reads key = false) : keySlot host key ∉ r.footprint host := by
  have hinfo : ∀ section_ : Option String, infoIncludes section_ "memory" = false →
      keySlot host key ∉
        {l | infoIncludes section_ "memory" = true ∧ ∃ i key, l = .slot i key} := by
    rintro section_ hs ⟨hm, _⟩
    rw [hs] at hm
    cases hm
  cases r with
  | pubsub act =>
      intro hm
      cases hm
  | info aof state section_ => exact hinfo section_ hr
  | command cmd =>
      by_cases hi : ∃ section_, cmd = .info section_
      · rcases hi with ⟨section_, rfl⟩
        exact hinfo section_ hr
      · have hi' : ∀ section_, cmd ≠ .info section_ := fun section_ heq => hi ⟨section_, heq⟩
        by_cases hp : ∃ ch msg, cmd = .publish ch msg
        · rcases hp with ⟨ch, msg, rfl⟩
          intro hm
          cases hm
        · have hp' : ∀ ch msg, cmd ≠ .publish ch msg := fun ch msg heq => hp ⟨ch, msg, heq⟩
          have hkeys : key ∉ cmd.readKeys := by
            cases cmd with
            | info section_ => exact (hi' section_ rfl).elim
            | _ => simpa [reads] using hr
          change _ ∉ cmd.footprint host
          rw [Command.footprint_read h hp' hi']
          rintro ⟨k, hk, heq⟩
          exact hkeys (keySlot_injective heq ▸ hk)

end Request

/-! ## When a read and a write are at work at the same time -/

/-- What the task will answer, once its place in the order is settled. -/
def Stage.result : Stage host → Option (Except Frame Frame)
  | .releasing result | .answering result | .answered result => some result
  | _ => none

def Stage.holdsGate : Stage host → Bool
  | .saving _ | .applying _ | .appending _ | .restoring .. | .releasing _ => true
  | _ => false

namespace Task

/-- A write has run a critical section, and it is not settled what remains of it. -/
def dirty (t : Task host) : Bool :=
  !t.readings.isEmpty && match t.stage with
  | .applying _ | .appending _ => true
  | .restoring _ left => !left.isEmpty
  | _ => false

/-- A read is between two of its critical sections. -/
def midRead (t : Task host) : Bool :=
  match t.stage with
  | .reading _ => !t.readings.isEmpty
  | _ => false

theorem not_midRead_of_dirty (t : Task host) (hd : t.dirty = true) : t.midRead ≠ true := by
  unfold dirty at hd
  unfold midRead
  cases hs : t.stage with
  | reading rest =>
      rw [hs, Bool.and_false] at hd
      cases hd
  | waiting | saving left | applying rest | appending reply | restoring error left
  | releasing result | answering result | answered result => exact Bool.false_ne_true

/-- The read looks at a key of the write. -/
def meets (write read : Task host) : Bool := write.request.mutatedKeys.any read.request.reads

/-- The next critical section of `t` reads a key of a write that is not settled, or it is
the first one of a write on a key of a read that is half done. -/
def collides (t f : Task host) : Bool :=
  match t.stage with
  | .reading _ => f.dirty && f.meets t
  | .applying _ => t.readings.isEmpty && f.midRead && t.meets f
  | _ => false

end Task

/-- A read and a write are at work on a key at the same time. -/
def World.Overlaps (e : World host Call × Event Call) : Prop :=
  match e.2 with
  | .step c _ => ∃ d, ((e.1.tasks c).any fun t => (e.1.tasks d).any t.collides) = true
  | _ => False

instance [Fintype Call] (e : World host Call × Event Call) : Decidable (World.Overlaps e) :=
  match e with
  | (_, .step _ _) => inferInstanceAs (Decidable (∃ _, _ = true))
  | (_, .request ..) => inferInstanceAs (Decidable False)
  | (_, .acknowledge ..) => inferInstanceAs (Decidable False)

theorem World.not_collides {w : World host Call} {c d : Call} {now : ExpireAt} {t f : Task host}
    (h : ¬ Overlaps (w, .step c now)) (ht : w.tasks c = some t) (hf : w.tasks d = some f) :
    t.collides f = false := by
  rw [← Bool.not_eq_true]
  intro hc
  exact h ⟨d, by rw [ht, hf]; exact hc⟩

/-! ## The invariant of a task -/

namespace Task

/-- The snapshot holds what was stored under the keys but those that are left. -/
structure Saved (A : Db host) (t : Task host) (left : List Bytes) : Prop where
  keys : t.rollback.map Prod.fst ++ left = sortDedup t.request.mutatedKeys
  entries : ∀ s ∈ t.rollback, s.2 = A.entry s.1

/-- A task in the database `D`, where `A` is what the settled calls lead to. -/
def Sound (aof : Bool) (A D : Db host) (t : Task host) : Prop :=
  match t.stage with
  | .waiting => t.request.isWrite = true ∧ t.rollback = [] ∧ t.readings = []
  | .saving left => t.request.isWrite = true ∧ t.readings = [] ∧ t.Saved A left ∧
      ∀ l, SameAt l A D
  | .applying rest => t.request.isWrite = true ∧ (aof = true → t.Saved A []) ∧
      ∃ A₁, t.request.sections.after t.readings A = some (rest, A₁) ∧ ∀ l, SameAt l A₁ D
  | .appending reply => t.request.isWrite = true ∧ t.Saved A [] ∧
      ∃ A₁, t.request.sections.after t.readings A = some (.done reply, A₁) ∧ ∀ l, SameAt l A₁ D
  | .restoring _ left => (t.readings = [] → ∀ l, SameAt l A D) ∧
      (∀ l, l ∉ slots host (left.map Prod.fst) → SameAt l A D) ∧
      ∀ s ∈ left, s.1 ∈ t.request.mutatedKeys ∧ s.2 = A.entry s.1
  | .releasing _ => ∀ l, SameAt l A D
  | .reading rest => t.request.isWrite = false ∧
      t.request.sections.after t.readings A = some (rest, A) ∧
      (t.readings = [] ∨ t.request.OnlyReads host)
  | .answering _ | .answered _ => True

theorem Sound.of_not_holdsGate {aof : Bool} {A D D' : Db host} {t : Task host}
    (h : t.Sound aof A D) (hn : t.stage.holdsGate = false) : t.Sound aof A D' := by
  unfold Sound at h ⊢
  cases hs : t.stage with
  | answering result | answered result => trivial
  | waiting | reading rest =>
      simp only [hs] at h ⊢
      exact h
  | saving left | applying rest | appending reply | restoring error left | releasing result =>
      rw [hs] at hn
      cases hn

/-- The gate holder leaves everything but its own keys as the settled calls have left it. -/
theorem Sound.same_outside {aof : Bool} {A D : Db host} {t : Task host} (h : t.Sound aof A D)
    (hg : t.stage.holdsGate = true) {l : Location} (hl : l ∉ slots host t.request.mutatedKeys) :
    SameAt l A D := by
  have hrun : ∀ {q : Sections host} {A₁ : Db host}, t.request.isWrite = true →
      t.request.sections.after t.readings A = some (q, A₁) → (∀ l, SameAt l A₁ D) →
      SameAt l A D := by
    intro q A₁ hw hafter hsame
    have hout := (t.request.within_sections.after sameAt_equivalence hafter).2
    rw [Request.footprint_write hw] at hout
    exact (sameAt_equivalence l).trans (hout l hl) (hsame l)
  unfold Sound at h
  cases hs : t.stage with
  | waiting | reading rest | answering result | answered result =>
      rw [hs] at hg
      cases hg
  | saving left =>
      simp only [hs] at h
      exact h.2.2.2 l
  | releasing result =>
      simp only [hs] at h
      exact h l
  | applying rest =>
      simp only [hs] at h
      exact hrun h.1 h.2.2.choose_spec.1 h.2.2.choose_spec.2
  | appending reply =>
      simp only [hs] at h
      exact hrun h.1 h.2.2.choose_spec.1 h.2.2.choose_spec.2
  | restoring error left =>
      simp only [hs] at h
      refine h.2.1 l fun hm => hl ?_
      rcases hm with ⟨key, hk, rfl⟩
      obtain ⟨s, hs, rfl⟩ := List.mem_map.mp hk
      exact mem_slots (h.2.2 s hs).1

/-- A gate holder that has not changed anything, or has undone it. -/
theorem Sound.same_of_clean {aof : Bool} {A D : Db host} {t : Task host} (h : t.Sound aof A D)
    (hg : t.stage.holdsGate = true) (hd : t.dirty = false) (l : Location) : SameAt l A D := by
  have hrun : ∀ {q : Sections host}, t.readings = [] → (∃ A₁,
      t.request.sections.after t.readings A = some (q, A₁) ∧ ∀ l, SameAt l A₁ D) →
      SameAt l A D := by
    rintro q hr ⟨A₁, hafter, hsame⟩
    rw [hr] at hafter
    cases hafter
    exact hsame l
  unfold Sound at h
  unfold dirty at hd
  cases hs : t.stage with
  | waiting | reading rest | answering result | answered result =>
      rw [hs] at hg
      cases hg
  | saving left =>
      simp only [hs] at h
      exact h.2.2.2 l
  | releasing result =>
      simp only [hs] at h
      exact h l
  | applying rest =>
      simp only [hs, Bool.and_true, Bool.not_eq_false', List.isEmpty_iff] at h hd
      exact hrun hd h.2.2
  | appending reply =>
      simp only [hs, Bool.and_true, Bool.not_eq_false', List.isEmpty_iff] at h hd
      exact hrun hd h.2.2
  | restoring error left =>
      simp only [hs, Bool.and_eq_false_iff, Bool.not_eq_false', List.isEmpty_iff] at h hd
      rcases hd with hd | hd
      · exact h.1 hd l
      · refine h.2.1 l ?_
        rw [hd]
        rintro ⟨key, hk, _⟩
        cases hk

/-- More settled calls: a read that is half done must not notice them. -/
theorem Sound.rebase {aof : Bool} {A A' D D' : Db host} {t : Task host} (h : t.Sound aof A D)
    (hn : t.stage.holdsGate = false)
    (hsame : t.midRead = true → ∀ l ∈ t.request.footprint host, SameAt l A A') :
    t.Sound aof A' D' := by
  unfold Sound at h ⊢
  unfold midRead at hsame
  cases hs : t.stage with
  | answering result | answered result => trivial
  | waiting =>
      simp only [hs] at h ⊢
      exact h
  | saving left | applying rest | appending reply | restoring error left | releasing result =>
      rw [hs] at hn
      cases hn
  | reading rest =>
      simp only [hs, Bool.not_eq_true', List.isEmpty_eq_false_iff] at h hsame ⊢
      refine ⟨h.1, ?_, h.2.2⟩
      by_cases hr : t.readings = []
      · have hafter := h.2.1
        rw [hr] at hafter ⊢
        cases hafter
        rfl
      · -- the same sections lead to the same place, and change nothing
        have hro := (h.2.2.resolve_left hr).readOnly
        obtain ⟨A₂, hafter, _⟩ := t.request.within_sections.congr (hsame hr) h.2.1
        rw [(hro.after hafter).2] at hafter
        exact hafter

/-- A read that is half done takes no part in what else the server does. -/
theorem Sound.onlyReads {aof : Bool} {A D : Db host} {t : Task host} (h : t.Sound aof A D)
    (hread : t.midRead = true) : t.request.isWrite = false ∧ t.request.OnlyReads host := by
  unfold Sound at h
  unfold midRead at hread
  cases hs : t.stage with
  | reading rest =>
      simp only [hs, Bool.not_eq_true', List.isEmpty_eq_false_iff] at h hread
      exact ⟨h.1, h.2.2.resolve_left hread⟩
  | waiting | saving left | applying rest | appending reply | restoring error left
  | releasing result | answering result | answered result =>
      rw [hs] at hread
      cases hread

/-- A step on the pub/sub table, in the database and behind the settled calls. -/
theorem Sound.shift {aof : Bool} {A A' D D' : Db host} {t : Task host} (h : t.Sound aof A D)
    (hA : A'.shards = A.shards) (hD : D'.shards = D.shards) (hp : A'.pubsub = D'.pubsub) :
    t.Sound aof A' D' := by
  have hslot : ∀ {B B' : Db host} (i : Fin shardCount) (key : Bytes), B'.shards = B.shards →
      SameAt (.slot i key) B B' := fun i key hB =>
    congrArg (fun shards : Fin shardCount → Shard => (shards i).stored key) hB.symm
  cases hg : t.stage.holdsGate with
  | false =>
      refine h.rebase hg fun hread l hl => ?_
      cases l with
      | pubsub => exact ((h.onlyReads hread).2.pubsub hl).elim
      | slot i key => exact hslot i key hA
  | true =>
      have hentry : A'.entry = A.entry := Db.entry_of_shards hA
      have hsaved : ∀ left, t.Saved A left → t.Saved A' left := fun left hs =>
        ⟨hs.keys, fun s hm => by rw [hentry]; exact hs.entries s hm⟩
      have hsame : ∀ l, SameAt l A D → SameAt l A' D' := by
        intro l hl
        cases l with
        | pubsub => exact hp
        | slot i key => exact ((hslot i key hA).symm.trans hl).trans (hslot i key hD)
      have hrun : ∀ {q : Sections host}, t.request.isWrite = true → (∃ A₁,
          t.request.sections.after t.readings A = some (q, A₁) ∧ ∀ l, SameAt l A₁ D) →
          ∃ A₁, t.request.sections.after t.readings A' = some (q, A₁) ∧ ∀ l, SameAt l A₁ D' := by
        rintro q hw ⟨A₁, hafter, hsame₁⟩
        have hwithin : (t.request.sections : Sections host).Within SameAt
            (slots host t.request.mutatedKeys) := by
          rw [← Request.footprint_write hw]
          exact t.request.within_sections
        have hin : ∀ l ∈ slots host t.request.mutatedKeys, SameAt l A A' := by
          rintro l ⟨key, _, rfl⟩
          exact hslot _ key hA
        obtain ⟨A₂, hafter₂, hsame₂⟩ := hwithin.congr hin hafter
        have hout := (hwithin.after sameAt_equivalence hafter).2
        have hout₂ := (hwithin.after sameAt_equivalence hafter₂).2
        refine ⟨A₂, hafter₂, fun l => ?_⟩
        cases l with
        | pubsub =>
            have hnot : Location.pubsub ∉ slots host t.request.mutatedKeys := by
              rintro ⟨key, _, heq⟩
              cases heq
            exact (hout₂ _ hnot).symm.trans hp
        | slot i key =>
            have hD' := (hsame₁ (.slot i key)).trans (hslot i key hD)
            by_cases hl : Location.slot i key ∈ slots host t.request.mutatedKeys
            · exact (hsame₂ _ hl).symm.trans hD'
            · exact (hout₂ _ hl).symm.trans (((hslot i key hA).symm.trans (hout _ hl)).trans hD')
      unfold Sound at h ⊢
      cases hs : t.stage with
      | waiting | reading rest | answering result | answered result =>
          rw [hs] at hg
          cases hg
      | saving left =>
          simp only [hs] at h ⊢
          exact ⟨h.1, h.2.1, hsaved left h.2.2.1, fun l => hsame l (h.2.2.2 l)⟩
      | applying rest =>
          simp only [hs] at h ⊢
          exact ⟨h.1, fun ha => hsaved [] (h.2.1 ha), hrun h.1 h.2.2⟩
      | appending reply =>
          simp only [hs] at h ⊢
          exact ⟨h.1, hsaved [] h.2.1, hrun h.1 h.2.2⟩
      | restoring error left =>
          simp only [hs] at h ⊢
          exact ⟨fun hr l => hsame l (h.1 hr l), fun l hl => hsame l (h.2.1 l hl), fun s hm => by
            rw [hentry]
            exact h.2.2 s hm⟩
      | releasing result =>
          simp only [hs] at h ⊢
          exact fun l => hsame l (h l)

/-- What a read looks at is not what a write with other keys changes. -/
theorem not_mem_slots {t f : Task host} (hw : f.request.isWrite = false)
    (hmeets : t.meets f = false) {l : Location} (hl : l ∈ f.request.footprint host) :
    l ∉ slots host t.request.mutatedKeys := by
  rintro ⟨key, hk, rfl⟩
  rw [meets, List.any_eq_false] at hmeets
  exact Request.apart_of_reads hw (Bool.not_eq_true _ ▸ hmeets key hk) hl

end Task
end MiniRedis.Clients
