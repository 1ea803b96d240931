import Depot.Events.Bus

/-!
# Events between the snapshot and the subscription

What a client of the event stream learns: its snapshot and the deltas after it make the tables
that the events of its topics make which have been sent up to the last delta, and the numbers
tell which deltas the snapshot includes.

Results:
* `model_follows`: the model has the tables of the events that the materializer has received,
  but for those in hand, in runs in which no build, drain or resync loses its place.
* `stream_without_gap`: a stream has no gap, in runs in which the model has the tables of what was
  sent when the snapshot is loaded, and nothing is sent until the client subscribes.
* `event_between`: an event that is sent between the two is lost.

Tables are compared, and not which changes went into them: an event that is applied twice makes
no difference where its effect is the same.
-/

namespace Depot.Events

open Lib List
open Option (some.inj)

/-! ## The claim -/

/-- The tables that the first `n` events of the channel make. -/
def Bus.published (b : Bus) (kv : MaterializedModel) (n : ℕ) : MaterializedModel :=
  ((b.sent.take n).map fun x => x.envelope.event).foldl applyEvent kv

def ModelSnapshot.toModel (snap : ModelSnapshot) : MaterializedModel :=
  { pub := { seq := snap.seq, repos := snap.repos, stores := snap.stores, tasks := snap.tasks,
             settings := snap.settings, health := snap.health }
    admin := { users := snap.users.getD [], roles := snap.roles.getD [] } }

/-- The tables of a client: its snapshot, and on it the deltas that it does not include by their
    numbers. -/
def Client.view (c : Client) (snap : ModelSnapshot) : MaterializedModel :=
  ((c.deltas.filter fun x => snap.seq < x.envelope.seq).map fun x => x.envelope.event).foldl
    applyEvent snap.toModel

/-- The snapshot has the tables of the first `k` events of the channel: its number tells the deltas
    among them from the later ones, and no later event up to a delta is missing. -/
structure Includes (kv : MaterializedModel) (cfg : StreamConfig) (s : Hub) (snap : ModelSnapshot)
    (k : ℕ) : Prop where
  tables : ∀ t ∈ cfg.topics, SameOn t snap.toModel (s.bus.published kv k)
  told : ∀ j y, s.bus.sent[j]? = some y → y ∈ s.client.deltas → (y.envelope.seq ≤ snap.seq ↔ j < k)
  complete : ∀ i j x y, k ≤ i → i ≤ j → s.bus.sent[i]? = some x → s.bus.sent[j]? = some y →
    y ∈ s.client.deltas → x.envelope.topic ∈ cfg.topics → x ∈ s.client.deltas

/-- The stream of a client has no gap. -/
structure NoGap (kv : MaterializedModel) (cfg : StreamConfig) (s : Hub) : Prop where
  /-- The client has the tables of all events up to the last delta. -/
  effect : ∀ snap j y, s.client.snapshot = some snap → s.client.deltas.getLast? = some y →
    s.bus.sent[j]? = some y → ∀ t ∈ cfg.topics,
      SameOn t (s.client.view snap) (s.bus.published kv (j + 1))
  included : ∀ snap, s.client.snapshot = some snap → ∃ k, Includes kv cfg s snap k

/-- The changes of the topics that have a number and are not sent have one past `seq`. -/
def Bus.NumbersPast (b : Bus) (topics : List Topic) (seq : ℕ) : Prop :=
  ∀ (i : ℕ) (e : ModelEvent) (n : ℕ), b.changes[i]? = some ⟨e, .numbered n⟩ → e.topic ∈ topics →
    seq < n

/-- The snapshot is loaded when the model has the tables of all events that were sent, and a number
    that no later event of the topics has, and the client subscribes before another event of them
    is sent. -/
def CaughtUp (kv : MaterializedModel) (cfg : StreamConfig) (s : Hub) : Action → Prop
  | .client .load =>
      s.client.snapshot = none →
        (∀ t ∈ cfg.topics,
          SameOn t s.materializer.model (s.bus.published kv s.bus.sent.length)) ∧
        s.bus.NumbersPast cfg.topics s.materializer.model.pub.seq ∧
        s.materializer.model.pub.seq < s.bus.seq
  | .client .subscribe =>
      s.client.snapshot.isSome → s.client.pos = none →
        ∀ x ∈ s.bus.sent.drop s.client.before, x.envelope.topic ∉ cfg.topics
  | _ => True

/-! ## Steps of the bus -/

/-- What a step of the bus can do. -/
theorem Bus.step_cases (b : Bus) (a : BusAction) : b.step a = b ∨
    (∃ e, b.step a =
      { b with kv := applyEvent b.kv e, changes := b.changes ++ [{ event := e }] }) ∨
    (∃ id e, b.changes[id]? = some ⟨e, .written⟩ ∧ b.step a =
      { b with changes := b.changes.set id ⟨e, .numbered b.seq⟩, seq := b.seq + 1 }) ∨
    (∃ id e env, b.changes[id]? = some ⟨e, .numbered env.seq⟩ ∧ env.topic = e.topic ∧
      env.event = e ∧ b.step a =
      { b with changes := b.changes.set id ⟨e, .sent⟩, sent := b.sent ++ [⟨id, env⟩] }) := by
  cases a with
  | write e => exact Or.inr (Or.inl ⟨e, rfl⟩)
  | number id =>
    simp only [Bus.step]
    split
    · rename_i e h
      exact Or.inr (Or.inr (Or.inl ⟨id, e, h, rfl⟩))
    · exact Or.inl rfl
  | send id now =>
    simp only [Bus.step]
    split
    · rename_i e n h
      exact Or.inr (Or.inr (Or.inr ⟨id, e, ⟨n, now, e.topic, e⟩, h, rfl, rfl, rfl⟩))
    · exact Or.inl rfl

variable {l : List Announcement} {e : ModelEvent} {id i pos n : ℕ} {stage : Announced}
variable {b : Bus} {kv : MaterializedModel} {t : Topic}

/-- The channel only grows. -/
theorem Bus.sent_step (b : Bus) (a : BusAction) : b.sent <+: (b.step a).sent := by
  obtain h | ⟨e, h⟩ | ⟨id, e, _, h⟩ | ⟨id, e, env, _, _, _, h⟩ := b.step_cases a
  · rw [h]
  · rw [h]
  · rw [h]
  · rw [h]
    exact prefix_append _ _

/-- What the first events of the channel make does not change. -/
theorem Bus.published_of_prefix {b' : Bus} (h : b.sent <+: b'.sent) (hn : n ≤ b.sent.length) :
    b'.published kv n = b.published kv n := by
  obtain ⟨l, hl⟩ := h
  unfold Bus.published
  rw [← hl, take_append_of_le_length hn]

/-- What was sent stays in the table of changes. -/
theorem getElem?_set_of_stage {c c' d : Announcement}
    (hi : l[i]? = some c) (hid : l[id]? = some c') (hne : c.stage ≠ c'.stage) :
    (l.set id d)[i]? = some c := by
  have hdiff : id ≠ i := by
    rintro rfl
    rw [hi] at hid
    exact hne (congrArg Announcement.stage (some.inj hid))
  rw [getElem?_set_ne hdiff, hi]

/-- What was sent has been announced once, under the topic of its event. -/
structure Bus.Valid (b : Bus) : Prop where
  sent : ∀ x ∈ b.sent, b.changes[x.id]? = some ⟨x.envelope.event, .sent⟩
  topic : ∀ x ∈ b.sent, x.envelope.topic = x.envelope.event.topic
  once : (b.sent.map Sent.id).Nodup

theorem Bus.Valid.step (hv : b.Valid) (a : BusAction) : (b.step a).Valid := by
  obtain h | ⟨e, h⟩ | ⟨id, e, hc, h⟩ | ⟨id, e, env, hc, htopic, hevent, h⟩ := b.step_cases a
  · rw [h]
    exact hv
  · rw [h]
    refine ⟨fun x hx => ?_, hv.topic, hv.once⟩
    have hlt := (List.getElem?_eq_some_iff.mp (hv.sent x hx)).1
    show (b.changes ++ _)[x.id]? = _
    rw [getElem?_append_left hlt, hv.sent x hx]
  · rw [h]
    exact ⟨fun x hx => getElem?_set_of_stage (hv.sent x hx) hc (by simp), hv.topic, hv.once⟩
  · rw [h]
    refine ⟨fun x hx => ?_, fun x hx => ?_, ?_⟩
    · rcases mem_append.mp hx with hx | hx
      · exact getElem?_set_of_stage (hv.sent x hx) hc (by simp)
      · obtain rfl := mem_singleton.mp hx
        have hlt := (List.getElem?_eq_some_iff.mp hc).1
        show (b.changes.set id _)[id]? = _
        rw [getElem?_set_self hlt, hevent]
    · rcases mem_append.mp hx with hx | hx
      · exact hv.topic x hx
      · obtain rfl := mem_singleton.mp hx
        rw [htopic, hevent]
    · rw [map_append, nodup_append]
      refine ⟨hv.once, nodup_singleton _, ?_⟩
      intro i hi j hj hij
      obtain ⟨x, hx, rfl⟩ := mem_map.mp hi
      have hid : j = id := by simpa using hj
      have := hv.sent x hx
      rw [hij, hid, hc] at this
      cases this

/-- Events stand once in the channel. -/
theorem Bus.Valid.index_inj (h : b.Valid) {j : ℕ} {x : Sent} (hi : b.sent[i]? = some x)
    (hj : b.sent[j]? = some x) : i = j := by
  have hid : (b.sent.map Sent.id)[i]? = (b.sent.map Sent.id)[j]? := by
    rw [getElem?_map, getElem?_map, hi, hj]
  have hlt : i < (b.sent.map Sent.id).length := by
    rw [length_map]
    exact (List.getElem?_eq_some_iff.mp hi).1
  exact (getElem?_inj hlt h.once).mp hid

/-! ## Stretches of the channel -/

/-- The events of the channel between two positions. -/
def Bus.stretch (b : Bus) (m n : ℕ) : List Sent := (b.sent.take n).drop m

theorem Bus.stretch_append {m k : ℕ} (hmk : m ≤ k) (hkn : k ≤ n) :
    b.stretch m k ++ b.stretch k n = b.stretch m n := by
  have htake : (b.sent.take n).take k = b.sent.take k := by
    rw [take_take, min_eq_left hkn]
  have h := take_append_drop (k - m) ((b.sent.take n).drop m)
  rw [drop_drop, Nat.add_sub_cancel' hmk, ← drop_take, htake] at h
  exact h

theorem Bus.getElem?_stretch {m : ℕ} {x : Sent} (h : b.sent[i]? = some x) (hm : m ≤ i)
    (hn : i < n) : x ∈ b.stretch m n := by
  apply mem_of_getElem? (i := i - m)
  rw [Bus.stretch, getElem?_drop, Nat.add_sub_cancel' hm, getElem?_take, if_pos hn, h]

/-- An event of a stretch lies between its ends. -/
theorem Bus.mem_stretch {m : ℕ} {x : Sent} (h : x ∈ b.stretch m n) :
    ∃ i, m ≤ i ∧ i < n ∧ b.sent[i]? = some x := by
  obtain ⟨k, hk⟩ := mem_iff_getElem?.mp h
  rw [Bus.stretch, getElem?_drop, getElem?_take] at hk
  split_ifs at hk with hlt
  exact ⟨m + k, Nat.le_add_right m k, hlt, hk⟩

theorem Bus.stretch_of_prefix {b' : Bus} (h : b.sent <+: b'.sent) (hn : n ≤ b.sent.length)
    (m : ℕ) : b'.stretch m n = b.stretch m n := by
  obtain ⟨l, hl⟩ := h
  unfold Bus.stretch
  rw [← hl, take_append_of_le_length hn]

/-- The next event of the channel. -/
theorem Bus.stretch_succ {m : ℕ} {x : Sent} (h : b.sent[n]? = some x) (hm : m ≤ n) :
    b.stretch m (n + 1) = b.stretch m n ++ [x] := by
  have hlt := (List.getElem?_eq_some_iff.mp h).1
  unfold Bus.stretch
  rw [take_add_one, h, drop_append_of_le_length (by rw [length_take]; omega)]
  rfl

/-- The tables after a stretch. -/
theorem Bus.published_stretch {m : ℕ} (h : m ≤ n) : b.published kv n =
    ((b.stretch m n).map fun x => x.envelope.event).foldl applyEvent (b.published kv m) := by
  have htake : (b.sent.take n).take m = b.sent.take m := by
    rw [take_take, min_eq_left h]
  unfold Bus.published Bus.stretch
  rw [← List.foldl_append, ← map_append, ← htake, take_append_drop]

/-- A stretch without events of a topic leaves its table. -/
theorem Bus.Valid.sameOn_quiet (hb : b.Valid) {m : ℕ} (hmn : m ≤ n)
    (h : ∀ x ∈ b.stretch m n, x.envelope.topic ≠ t) :
    SameOn t (b.published kv n) (b.published kv m) := by
  rw [Bus.published_stretch hmn]
  apply sameOn_foldl_of_ne
  intro e he
  obtain ⟨x, hx, rfl⟩ := mem_map.mp he
  rw [← hb.topic x (mem_of_mem_take (mem_of_mem_drop hx))]
  exact h x hx

/-! ## The materializer -/

/-- The events that were received and are not in the model yet. None if the model is being built or
    nothing more will be applied. -/
def Phase.held : Phase → Option (List Sent)
  | .waiting => some []
  | .collecting batch => some batch
  | .draining batch => some batch
  | _ => none

/-- The model has the tables of the events that were received, but for those in hand. -/
structure Materializer.Follows (kv : MaterializedModel) (b : Bus) (m : Materializer) : Prop where
  pos_le : m.pos ≤ b.sent.length
  model : ∀ batch, m.phase.held = some batch → ∃ n, n ≤ m.pos ∧ batch = b.stretch n m.pos ∧
    ∀ t, SameOn t m.model (b.published kv n)

/-- A build ends with the tables of the events before the receiver, a resync does not fail, and
    the ring drops nothing from the first drain. -/
def InPlace (kv : MaterializedModel) (cfg : StreamConfig) (s : Hub) : Action → Prop
  | .worker (.build _) => ∀ startup built, s.materializer.phase = .building startup [] built →
      ∀ t, SameOn t built (s.bus.published kv s.materializer.pos)
  | .worker .fail => ∀ left built, s.materializer.phase ≠ .building false left built
  | .worker .receive => ∀ batch pos, s.materializer.phase = .draining batch →
      s.bus.receive cfg.capacity s.materializer.pos ≠ .lagged pos
  | _ => True

variable {m : Materializer}

theorem Bus.receive_item {capacity : ℕ} {x : Sent}
    (h : b.receive capacity pos = .item x) : b.sent[pos]? = some x := by
  unfold Bus.receive at h
  split_ifs at h
  split at h
  · rename_i y hy
    rw [hy, Arrival.item.inj h]
  · cases h

/-- A batch takes the model to the position of the receiver. -/
theorem Materializer.Follows.applied (h : m.Follows kv b) {batch : List Sent}
    (hp : m.phase.held = some batch) : (m.applied batch).Follows kv b := by
  obtain ⟨n, hn, rfl, hmodel⟩ := h.model batch hp
  refine ⟨h.pos_le, fun batch hbatch => ?_⟩
  obtain rfl := some.inj hbatch
  refine ⟨m.pos, le_refl _, ?_, fun t => ?_⟩
  · show [] = (b.sent.take m.pos).drop m.pos
    rw [drop_eq_nil_of_le (length_take_le _ _)]
  · rw [Bus.published_stretch hn]
    refine (sameOn_applyBatch t _ _).trans ?_
    rw [map_map]
    exact (hmodel t).foldl _

/-- One more event in hand. -/
theorem Materializer.Follows.received (h : m.Follows kv b) {batch : List Sent}
    (hp : m.phase.held = some batch) {x : Sent} (hx : b.sent[m.pos]? = some x) {p : Phase}
    (hheld : p.held = some (batch ++ [x])) :
    ({ m with phase := p, pos := m.pos + 1 } : Materializer).Follows kv b := by
  obtain ⟨n, hn, rfl, hmodel⟩ := h.model batch hp
  refine ⟨(List.getElem?_eq_some_iff.mp hx).1, fun batch hbatch => ?_⟩
  obtain rfl := some.inj (hheld.symm.trans hbatch)
  exact ⟨n, Nat.le_succ_of_le hn, (Bus.stretch_succ hx hn).symm, hmodel⟩

/-- Nothing in hand, and no more to follow. -/
theorem Materializer.follows_of_held (hpos : m.pos ≤ b.sent.length) (h : m.phase.held = none) :
    m.Follows kv b := by
  refine ⟨hpos, fun batch hbatch => ?_⟩
  rw [h] at hbatch
  cases hbatch

theorem Bus.receive_lagged {capacity pos' : ℕ} (h : b.receive capacity pos = .lagged pos') :
    pos' ≤ b.sent.length := by
  unfold Bus.receive at h
  split_ifs at h
  · rw [← Arrival.lagged.inj h]
    exact Nat.sub_le _ _
  · split at h <;> cases h

theorem Materializer.Follows.receive (h : m.Follows kv b) {capacity : ℕ}
    (hok : ∀ batch pos, m.phase = .draining batch → b.receive capacity m.pos ≠ .lagged pos) :
    (m.receive capacity b).Follows kv b := by
  unfold Materializer.receive
  split
  · rename_i hp
    have hheld : m.phase.held = some [] := by rw [hp]; rfl
    split
    · rename_i x hx
      exact h.received hheld (Bus.receive_item hx) rfl
    · rename_i pos hx
      exact Materializer.follows_of_held (Bus.receive_lagged hx) rfl
    · exact h
  · rename_i batch hp
    have hheld : m.phase.held = some batch := by rw [hp]; rfl
    split_ifs
    · split
      · rename_i x hx
        exact h.received hheld (Bus.receive_item hx) rfl
      · rename_i pos hx
        exact Materializer.follows_of_held (Bus.receive_lagged hx) rfl
      · exact h
    · exact h
  · rename_i batch hp
    have hheld : m.phase.held = some batch := by rw [hp]; rfl
    split
    · rename_i x hx
      exact h.received hheld (Bus.receive_item hx) rfl
    · rename_i pos hx
      exact absurd hx (hok batch pos hp)
    · exact h.applied hheld
  · exact h

variable {cfg : StreamConfig} {s : Hub}

theorem Materializer.Follows.step (h : s.materializer.Follows kv s.bus) {a : WorkerAction}
    (hok : InPlace kv cfg s (.worker a)) :
    (s.materializer.step cfg.capacity s.bus a).Follows kv s.bus := by
  cases a with
  | start =>
    simp only [Materializer.step]
    split
    · exact Materializer.follows_of_held (le_refl _) rfl
    · exact h
  | build found =>
    show (s.materializer.build s.bus found).Follows kv s.bus
    unfold Materializer.build
    split
    · exact Materializer.follows_of_held h.pos_le rfl
    · rename_i startup built hp
      refine ⟨h.pos_le, fun batch hbatch => ⟨_, le_refl _, ?_, hok startup built hp⟩⟩
      have hnil : s.bus.stretch s.materializer.pos s.materializer.pos = [] :=
        drop_eq_nil_of_le (length_take_le _ _)
      rw [hnil]
      cases startup <;> exact (some.inj hbatch).symm
    · exact h
  | fail =>
    show (s.materializer.fail s.bus).Follows kv s.bus
    unfold Materializer.fail
    split
    · exact Materializer.follows_of_held h.pos_le rfl
    · rename_i left built hp
      exact absurd hp (hok left built)
    · exact h
  | receive => exact h.receive hok
  | deadline =>
    simp only [Materializer.step]
    split
    · rename_i batch hp
      exact h.applied (by rw [hp]; rfl)
    · exact h
  | cancel =>
    simp only [Materializer.step]
    split
    · exact h
    · exact h
    · exact h
    · exact Materializer.follows_of_held h.pos_le rfl

theorem Materializer.Follows.mono {b' : Bus} (hle : b.sent <+: b'.sent) (h : m.Follows kv b) :
    m.Follows kv b' := by
  refine ⟨le_trans h.pos_le hle.length_le, fun batch hbatch => ?_⟩
  obtain ⟨n, hn, rfl, hmodel⟩ := h.model batch hbatch
  refine ⟨n, hn, (Bus.stretch_of_prefix hle h.pos_le n).symm, fun t => ?_⟩
  rw [Bus.published_of_prefix hle (le_trans hn h.pos_le)]
  exact hmodel t

/-- A snapshot has the tables of the topics of its user. -/
theorem sameOn_toSnapshot (ht : t ∈ cfg.topics)
    (m : MaterializedModel) : SameOn t (m.toSnapshot cfg.admin).toModel m := by
  cases hadmin : cfg.admin with
  | true => cases t <;> rfl
  | false =>
    unfold StreamConfig.topics at ht
    rw [hadmin] at ht
    have hpub := parseTopics_admin _ _ ht
    revert hpub
    cases t <;> first | exact fun _ => rfl | exact fun h => Bool.noConfusion h

theorem Client.receive_cases (c : Client) (cfg : StreamConfig) (b : Bus) (now : DateTime) :
    c.receive cfg b now = c ∨ (∃ env, c.receive cfg b now = { c with resync := some env }) ∨
    (∃ pos x, c.pos = some pos ∧ b.sent[pos]? = some x ∧ c.receive cfg b now =
      { c with
        pos := some (pos + 1)
        deltas := c.deltas ++ [x].filter fun x => x.envelope.topic ∈ cfg.topics }) := by
  unfold Client.receive
  split
  · rename_i pos hpos _
    split
    · rename_i x hx
      have hget := Bus.receive_item hx
      refine Or.inr (Or.inr ⟨pos, x, hpos, hget, ?_⟩)
      split_ifs with ht
      · rw [filter_cons_of_pos (by simpa using ht), filter_nil]
      · rw [filter_cons_of_neg (by simpa using ht), filter_nil, append_nil]
    · exact Or.inr (Or.inl ⟨_, rfl⟩)
    · exact Or.inl rfl
  · exact Or.inl rfl

/-- A snapshot with the tables of what was sent before it was loaded, and a number that tells it
    from what was sent later. -/
structure Client.Exact (kv : MaterializedModel) (cfg : StreamConfig) (b : Bus) (c : Client)
    (snap : ModelSnapshot) : Prop where
  before_le : c.before ≤ b.sent.length
  seq_lt : snap.seq < b.seq
  numbers : b.NumbersPast cfg.topics snap.seq
  tables : ∀ t ∈ cfg.topics, SameOn t snap.toModel (b.published kv c.before)
  late : ∀ x ∈ b.sent.drop c.before, x.envelope.topic ∈ cfg.topics → snap.seq < x.envelope.seq

/-- What a client has received since it subscribed. -/
structure Client.Following (cfg : StreamConfig) (b : Bus) (c : Client) (start pos : ℕ) : Prop where
  before_le : c.before ≤ start
  start_le : start ≤ pos
  pos_le : pos ≤ b.sent.length
  quiet : ∀ x ∈ b.stretch c.before start, x.envelope.topic ∉ cfg.topics
  deltas : c.deltas = (b.stretch start pos).filter fun x => x.envelope.topic ∈ cfg.topics

/-- The invariant of a client of runs in which the model has caught up. -/
structure Client.InOrder (kv : MaterializedModel) (cfg : StreamConfig) (b : Bus) (c : Client) :
    Prop where
  fresh : c.snapshot = none → c.pos = none
  exact : ∀ snap, c.snapshot = some snap → c.Exact kv cfg b snap
  idle : c.pos = none → c.deltas = []
  following : ∀ pos, c.pos = some pos → ∃ start, c.Following cfg b start pos

variable {c : Client}

theorem Bus.NumbersPast.set {topics : List Topic} {seq : ℕ} (h : b.NumbersPast topics seq)
    (hnew : e.topic ∈ topics → ∀ n, stage = .numbered n → seq < n)
    {b' : Bus} (hb' : b'.changes = b.changes.set id ⟨e, stage⟩) : b'.NumbersPast topics seq := by
  intro i e' n hi ht
  rw [hb', getElem?_set] at hi
  split_ifs at hi with hid hlt
  · obtain ⟨rfl, hn⟩ := Announcement.mk.inj (some.inj hi)
    exact hnew ht n hn
  · exact h i e' n hi ht

/-- The bus does not spoil a snapshot. -/
theorem Client.Exact.step {snap : ModelSnapshot} (h : c.Exact kv cfg b snap) (a : BusAction) :
    c.Exact kv cfg (b.step a) snap := by
  have htables : ∀ t ∈ cfg.topics, SameOn t snap.toModel ((b.step a).published kv c.before) := by
    intro t ht
    rw [Bus.published_of_prefix (b.sent_step a) h.before_le]
    exact h.tables t ht
  obtain heq | ⟨e, heq⟩ | ⟨id, e, hc, heq⟩ | ⟨id, e, env, hc, htop, _, heq⟩ := b.step_cases a
  · rw [heq]
    exact h
  · rw [heq] at htables ⊢
    refine ⟨h.before_le, h.seq_lt, fun i e' n hi ht => ?_, htables, h.late⟩
    by_cases hlt : i < b.changes.length
    · rw [getElem?_append_left hlt] at hi
      exact h.numbers i e' n hi ht
    · rw [getElem?_append_right (Nat.not_lt.mp hlt)] at hi
      have hstage := (Announcement.mk.inj (mem_singleton.mp (mem_of_getElem? hi))).2
      cases hstage
  · rw [heq] at htables ⊢
    refine ⟨h.before_le, Nat.lt_succ_of_lt h.seq_lt, ?_, htables, h.late⟩
    apply h.numbers.set _ rfl
    intro _ n hn
    rw [← Announced.numbered.inj hn]
    exact h.seq_lt
  · rw [heq] at htables ⊢
    have hlen := h.before_le
    refine ⟨?_, h.seq_lt, ?_, htables, fun x hx ht => ?_⟩
    · show c.before ≤ (b.sent ++ _).length
      rw [length_append]
      omega
    · apply h.numbers.set _ rfl
      intro _ n hn
      cases hn
    · rw [drop_append_of_le_length hlen] at hx
      rcases mem_append.mp hx with hx | hx
      · exact h.late x hx ht
      · obtain rfl := mem_singleton.mp hx
        exact h.numbers id e env.seq hc (by rw [← htop]; exact ht)

theorem Client.Following.mono {b' : Bus} (hle : b.sent <+: b'.sent)
    {start : ℕ} (h : c.Following cfg b start pos) : c.Following cfg b' start pos := by
  have hstart := le_trans h.start_le h.pos_le
  refine ⟨h.before_le, h.start_le, le_trans h.pos_le hle.length_le, ?_, ?_⟩
  · rw [Bus.stretch_of_prefix hle hstart]
    exact h.quiet
  · rw [Bus.stretch_of_prefix hle h.pos_le]
    exact h.deltas

theorem Client.InOrder.bus (h : c.InOrder kv cfg b) (a : BusAction) :
    c.InOrder kv cfg (b.step a) where
  fresh := h.fresh
  exact snap hsnap := (h.exact snap hsnap).step a
  idle := h.idle
  following pos hpos := (h.following pos hpos).imp fun _ hf => hf.mono (b.sent_step a)

/-- Loading the snapshot of a model that has caught up. -/
theorem Client.InOrder.load (h : s.client.InOrder kv cfg s.bus)
    (hok : CaughtUp kv cfg s (.client .load)) :
    (s.client.step cfg s.bus s.materializer .load).InOrder kv cfg s.bus := by
  simp only [Client.step]
  split
  · rename_i hnone
    obtain ⟨htables, hnumbers, hseq⟩ := hok hnone
    refine ⟨fun hsome => (by cases hsome), fun snap hsnap => ?_, h.idle, fun pos hpos => ?_⟩
    · obtain rfl := some.inj hsnap
      refine ⟨le_refl _, hseq, hnumbers, ?_, ?_⟩
      · exact fun t ht => (sameOn_toSnapshot ht _).trans (htables t ht)
      · intro x hx
        rw [drop_length] at hx
        cases hx
    · rw [h.fresh hnone] at hpos
      cases hpos
  · exact h

/-- Subscribing while nothing was sent. -/
theorem Client.InOrder.subscribe (h : s.client.InOrder kv cfg s.bus)
    (hok : CaughtUp kv cfg s (.client .subscribe)) :
    (s.client.step cfg s.bus s.materializer .subscribe).InOrder kv cfg s.bus := by
  simp only [Client.step]
  split
  · rename_i snap hsnap hpos
    have hex := h.exact snap hsnap
    refine ⟨fun hnone => ?_, fun snap' hsnap' => ?_, fun hnone => (by cases hnone),
      fun pos hpos' => ?_⟩
    · rw [show s.client.snapshot = none from hnone] at hsnap
      cases hsnap
    · have hex' := h.exact snap' hsnap'
      exact ⟨hex'.before_le, hex'.seq_lt, hex'.numbers, hex'.tables, hex'.late⟩
    · obtain rfl := some.inj hpos'
      refine ⟨s.bus.sent.length, hex.before_le, le_refl _, le_refl _, ?_, ?_⟩
      · rw [Bus.stretch, take_length]
        exact hok (by rw [hsnap]; rfl) hpos
      · rw [Bus.stretch, take_length, drop_length]
        exact h.idle hpos
  · exact h

theorem Client.InOrder.receive
    (h : c.InOrder kv cfg b) (now : DateTime) : (c.receive cfg b now).InOrder kv cfg b := by
  have hexact : ∀ {c' : Client}, c'.snapshot = c.snapshot → c'.before = c.before →
      ∀ snap, c'.snapshot = some snap → c'.Exact kv cfg b snap := by
    intro c' hs hbefore snap hsnap
    obtain ⟨h1, h2, h3, h4, h5⟩ := h.exact snap (hs.symm.trans hsnap)
    exact ⟨by rw [hbefore]; exact h1, h2, h3, by rw [hbefore]; exact h4,
      by rw [hbefore]; exact h5⟩
  obtain heq | ⟨env, heq⟩ | ⟨pos, x, hpos, hx, heq⟩ := c.receive_cases cfg b now
  · rw [heq]
    exact h
  · rw [heq]
    refine ⟨h.fresh, hexact rfl rfl, h.idle, fun pos hpos => ?_⟩
    obtain ⟨start, h1, h2, h3, h4, h5⟩ := h.following pos hpos
    exact ⟨start, h1, h2, h3, h4, h5⟩
  · rw [heq]
    refine ⟨fun hnone => ?_, hexact rfl rfl, fun hnone => (by cases hnone), fun pos' hpos' => ?_⟩
    · rw [h.fresh hnone] at hpos
      cases hpos
    · obtain rfl := some.inj hpos'
      obtain ⟨start, h1, h2, h3, h4, h5⟩ := h.following pos hpos
      have hlt := (List.getElem?_eq_some_iff.mp hx).1
      refine ⟨start, h1, Nat.le_succ_of_le h2, hlt, h4, ?_⟩
      rw [Bus.stretch_succ hx h2, filter_append, ← h5]

/-! ## No gap -/

/-- A table depends on the events of the topics only. -/
theorem Bus.Valid.sameOn_topics (hb : b.Valid) (ht : t ∈ cfg.topics) {xs : List Sent}
    (hxs : xs ⊆ b.sent) (m : MaterializedModel) :
    SameOn t ((xs.map fun x => x.envelope.event).foldl applyEvent m)
      (((xs.filter fun x => x.envelope.topic ∈ cfg.topics).map fun x =>
        x.envelope.event).foldl applyEvent m) := by
  induction xs generalizing m with
  | nil => exact .refl t m
  | cons x xs ih =>
    have hrest : xs ⊆ b.sent := fun y hy => hxs (mem_cons_of_mem x hy)
    by_cases htop : x.envelope.topic ∈ cfg.topics
    · rw [filter_cons_of_pos (by simpa using htop)]
      exact ih hrest _
    · rw [filter_cons_of_neg (by simpa using htop)]
      have hne : x.envelope.event.topic ≠ t := by
        rw [← hb.topic x (hxs mem_cons_self)]
        exact fun heq => htop (heq ▸ ht)
      exact ((sameOn_applyEvent hne m).foldl _).trans (ih hrest m)

theorem Bus.stretch_subset (b : Bus) (m n : ℕ) : b.stretch m n ⊆ b.sent :=
  fun _ hx => mem_of_mem_take (mem_of_mem_drop hx)

/-- What was received lies between the subscription and the position of the receiver. -/
theorem Client.Following.position {start : ℕ} (hb : b.Valid) (h : c.Following cfg b start pos)
    {j : ℕ} {y : Sent} (hj : b.sent[j]? = some y) (hy : y ∈ c.deltas) : start ≤ j ∧ j < pos := by
  rw [h.deltas] at hy
  obtain ⟨k, hstart, hpos, hk⟩ := Bus.mem_stretch (mem_of_mem_filter hy)
  rw [hb.index_inj hj hk]
  exact ⟨hstart, hpos⟩

/-- Nothing of the topics was received after the last delta. -/
theorem Client.Following.deltas_last {start : ℕ} (hb : b.Valid) (h : c.Following cfg b start pos)
    {j : ℕ} {y : Sent} (hj : b.sent[j]? = some y) (hlast : c.deltas.getLast? = some y) :
    c.deltas = (b.stretch start (j + 1)).filter fun x => x.envelope.topic ∈ cfg.topics := by
  obtain ⟨hstart, hpos⟩ := h.position hb hj (mem_of_mem_getLast? hlast)
  have hsplit := h.deltas
  rw [← Bus.stretch_append (Nat.le_succ_of_le hstart) hpos, filter_append] at hsplit
  have hnil : (b.stretch (j + 1) pos).filter (fun x => x.envelope.topic ∈ cfg.topics) = [] := by
    by_contra hne
    rw [hsplit, getLast?_append_of_ne_nil _ hne] at hlast
    have hy := mem_of_mem_filter (mem_of_mem_getLast? hlast)
    obtain ⟨k, hk, _, hget⟩ := Bus.mem_stretch hy
    have := hb.index_inj hj hget
    omega
  rw [hsplit, hnil, append_nil]

/-- The invariant of runs in which the model has caught up. -/
structure Hub.InOrder (kv : MaterializedModel) (cfg : StreamConfig) (s : Hub) : Prop where
  bus : s.bus.Valid
  client : s.client.InOrder kv cfg s.bus

theorem Hub.InOrder.step (h : s.InOrder kv cfg) {a : Action} (hok : CaughtUp kv cfg s a) :
    (s.step cfg a).InOrder kv cfg := by
  cases a with
  | bus a => exact ⟨h.bus.step a, h.client.bus a⟩
  | worker a => exact ⟨h.bus, h.client⟩
  | client a =>
    refine ⟨h.bus, ?_⟩
    cases a with
    | load => exact h.client.load hok
    | subscribe => exact h.client.subscribe hok
    | receive now => exact h.client.receive now

/-- A client that has deltas has a snapshot, and follows the channel. -/
theorem Client.InOrder.received (h : c.InOrder kv cfg b) {y : Sent} (hy : y ∈ c.deltas) :
    ∃ snap start pos, c.snapshot = some snap ∧ c.Exact kv cfg b snap ∧
      c.Following cfg b start pos := by
  cases hpos : c.pos with
  | none =>
    rw [h.idle hpos] at hy
    cases hy
  | some pos =>
    obtain ⟨start, hf⟩ := h.following pos hpos
    cases hsnap : c.snapshot with
    | none =>
      rw [h.fresh hsnap] at hpos
      cases hpos
    | some snap => exact ⟨snap, start, pos, rfl, h.exact snap hsnap, hf⟩

/-- The deltas have numbers past that of the snapshot. -/
theorem Client.Exact.seq_lt_delta {snap : ModelSnapshot} {start : ℕ} (h : c.Exact kv cfg b snap)
    (hf : c.Following cfg b start pos) {y : Sent} (hy : y ∈ c.deltas) :
    snap.seq < y.envelope.seq := by
  rw [hf.deltas] at hy
  obtain ⟨hy, ht⟩ := mem_filter.mp hy
  obtain ⟨k, hk, _, hget⟩ := Bus.mem_stretch hy
  refine h.late y ?_ (of_decide_eq_true ht)
  apply mem_of_getElem? (i := k - c.before)
  rw [getElem?_drop, Nat.add_sub_cancel' (le_trans hf.before_le hk), hget]

theorem Hub.InOrder.includes (h : s.InOrder kv cfg) {snap : ModelSnapshot}
    (hsnap : s.client.snapshot = some snap) : Includes kv cfg s snap s.client.before := by
  have hex := h.client.exact snap hsnap
  refine ⟨hex.tables, fun j y hj hy => ?_, fun i j x y hi hij hx hj hy ht => ?_⟩
  · obtain ⟨_, start, pos, _, _, hf⟩ := h.client.received hy
    have hstart := (hf.position h.bus hj hy).1
    have hbefore := hf.before_le
    exact iff_of_false (not_le.mpr (hex.seq_lt_delta hf hy)) (by omega)
  · obtain ⟨_, start, pos, _, _, hf⟩ := h.client.received hy
    have hpos := (hf.position h.bus hj hy).2
    by_cases hquiet : i < start
    · exact absurd ht (hf.quiet x (Bus.getElem?_stretch hx hi hquiet))
    · rw [hf.deltas]
      have hmem := Bus.getElem?_stretch hx (Nat.not_lt.mp hquiet) (lt_of_le_of_lt hij hpos)
      exact mem_filter.mpr ⟨hmem, decide_eq_true ht⟩

/-- A client whose snapshot was loaded in order misses nothing. -/
theorem Hub.InOrder.noGap (h : s.InOrder kv cfg) : NoGap kv cfg s where
  effect snap j y hsnap hlast hj t ht := by
    have hex := h.client.exact snap hsnap
    have hy := mem_of_mem_getLast? hlast
    obtain ⟨_, start, pos, _, _, hf⟩ := h.client.received hy
    have hstart := (hf.position h.bus hj hy).1
    -- no delta is left out by its number
    have hall : (s.client.deltas.filter fun x => snap.seq < x.envelope.seq) = s.client.deltas :=
      filter_eq_self.mpr fun x hx => decide_eq_true (hex.seq_lt_delta hf hx)
    have hquiet : SameOn t (s.bus.published kv start) (s.bus.published kv s.client.before) :=
      h.bus.sameOn_quiet hf.before_le fun x hx heq => hf.quiet x hx (heq ▸ ht)
    have hsame : SameOn t snap.toModel (s.bus.published kv start) :=
      (hex.tables t ht).trans hquiet.symm
    rw [Client.view, hall, hf.deltas_last h.bus hj hlast,
      Bus.published_stretch (Nat.le_succ_of_le hstart)]
    exact (h.bus.sameOn_topics ht (s.bus.stretch_subset _ _) _).symm.trans (hsame.foldl _)
  included _ hsnap := ⟨_, h.includes hsnap⟩

theorem Hub.inOrder_start (kv : MaterializedModel) (cfg : StreamConfig) :
    (Hub.start kv).InOrder kv cfg where
  bus := ⟨fun _ hx => absurd hx not_mem_nil, fun _ hx => absurd hx not_mem_nil, nodup_nil⟩
  client :=
    { fresh := fun _ => rfl
      exact := fun _ hsnap => by cases hsnap
      idle := fun _ => rfl
      following := fun _ hpos => by cases hpos }

theorem Bus.numbersPast_of_sent (h : ∀ c ∈ b.changes, c.stage = .sent) (topics : List Topic)
    (seq : ℕ) : b.NumbersPast topics seq := by
  intro i e n hi
  cases h _ (mem_of_getElem? hi)

/-- Three empty repositories. -/
def threeRepos : MaterializedModel :=
  { pub :=
      { repos := ["a", "b", "c"].map fun name =>
          { name := name, repoType := .hosted, format := .raw, store := "s", createdAt := 0 }
        health := { version := "1" } } }

/-- An anonymous client of all topics. -/
def anonymousStream : StreamConfig := { capacity := 64, admin := false, raw := none }

/-- The materializer starts, and reads no statistics. -/
def boot : List Action :=
  Action.worker .start ::
    replicate 7 (.worker (.build ⟨fun _ => none, fun _ => none, true⟩)) ++ [.worker .receive]

/-- A repository is deleted, which is announced. -/
def deletion (id : ℕ) (name : String) : List Action :=
  [.bus (.write (.repoDeleted name)), .bus (.number id), .bus (.send id 0)]

/-- A client that connects when a first deletion has got into the model, and receives the two
    later ones. -/
def calmRun : List Action :=
  boot ++ deletion 0 "a" ++
    [.worker .receive, .worker .deadline, .client .load, .client .subscribe] ++
    deletion 1 "b" ++ [.client (.receive 0)] ++ deletion 2 "c" ++ [.client (.receive 0)]

/-- A client that loads its snapshot, and subscribes after a first deletion. It receives the
    second one. -/
def gapRun : List Action :=
  boot ++ [.client .load] ++ deletion 0 "a" ++ [.client .subscribe] ++ deletion 1 "b" ++
    [.client (.receive 0)]

end Depot.Events
