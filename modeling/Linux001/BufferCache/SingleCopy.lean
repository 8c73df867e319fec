import Linux001.BufferCache.Locks

/-!
# One copy of every block

Processes that read a block with `bread`, change it and release it, and processes in `sys_sync`,
should find the cache and the disk to be one up-to-date copy of every block. The copy of a block is
the buffer in the queues that has its label; or the buffer that a process recycles, as long as that
is dirty; or, if there is neither, the block on the disk. There is one of them unless a process
brings the block back into the queues while another one is still writing the old buffer.

A process holds one buffer at a time, and does not sleep between the `bread` and the `brelse`. The
counters then count at most one reference of each of the 64 processes, so that they do not wrap
around, and the buffers that are changed are not locked.

## Main definitions

* `State.OneBlock`: the event is one of such processes.
* `State.Written`: no block is brought back while a dirty buffer of it is recycled.
* `Copy`: the cache and the disk are one copy of every block.

## Main results

* `bread_eq_store`: in runs in which no block is brought back too early, `bread` returns what has
  been written last.
* `bread_ne_store`: in other runs it may return something else.
-/

namespace Linux001.BufferCache

/-- `NR_TASKS`. -/
def nrTasks : ℕ := 64

variable {D : Type*} {N n : ℕ} {s s' : State D N n} {p : Fin n}
  {c : Option ((Label × Fin N) × D)} {q : Queues N} {f : Fin N → Buf D} {pr : Proc N}
  {V V' : Label → D}

/-! ### Processes with one buffer at a time -/

/-- The event is a `bread` or a `sys_sync` of a process that holds nothing, or a change or a release
of the buffer it holds, or a step of a call or of the disk. -/
def State.Plain (s : State D N n) : Event D N n → Prop
  | .call p _ u => u = .get true ∧ (s.proc p).held = []
  | .sync p => (s.proc p).held = []
  | .change p p' _ _ => p' = p
  | .fill _ _ _ => False
  | .run _ | .brelse _ _ | .disk _ | .intr _ => True

instance (s : State D N n) : DecidablePred s.Plain
  | .call p _ u => inferInstanceAs (Decidable (u = .get true ∧ (s.proc p).held = []))
  | .sync p => inferInstanceAs (Decidable ((s.proc p).held = []))
  | .change p p' _ _ => inferInstanceAs (Decidable (p' = p))
  | .fill _ _ _ => inferInstanceAs (Decidable False)
  | .run _ | .brelse _ _ | .disk _ | .intr _ => inferInstanceAs (Decidable True)

/-- The event is one of processes that each read a block, possibly change it and release it, or call
`sys_sync`. A process that holds a buffer does not sleep: no other one takes a step meanwhile. -/
def State.OneBlock (s : State D N n) (e : Event D N n) : Prop :=
  s.Plain e ∧ ∀ p ∈ e.proc, ∀ p' ≠ p, (s.proc p').pc = .idle → (s.proc p').held = []

instance (s : State D N n) : DecidablePred s.OneBlock := fun e =>
  inferInstanceAs (Decidable (s.Plain e ∧
    ∀ p ∈ e.proc, ∀ p' ≠ p, (s.proc p').pc = .idle → (s.proc p').held = []))

/-- The position is in a `bread` of a block of a device, in the `brelse` of a buffer or in
`sys_sync`. -/
def Pc.Breads : Pc N → Prop
  | .find l u | .hashWait _ l u | .brelse _ (some (l, u)) => u = .get true ∧ l.dev ≠ 0
  | .scan _ l read | .freeWait _ l read | .noFree _ l read => read = true ∧ l.dev ≠ 0
  | .sync (some r) _ | .syncWait (some r) _ | .syncWrite (some r) _ | .relabel r =>
    r.read = true ∧ r.label.dev ≠ 0
  | .readWait _ l => l.dev ≠ 0
  | _ => True

/-- The process is in the middle of a `bread`, or holds at most one buffer. -/
structure Proc.Single (pr : Proc N) : Prop where
  breads : pr.pc.Breads
  held : pr.pc ≠ .idle → pr.held = []
  length : pr.held.length ≤ 1
  dev : ∀ x ∈ pr.held, x.1.dev ≠ 0

/-- What holds in runs of processes that hold one buffer at a time. -/
structure Single (s : State D N n) : Prop where
  proc : ∀ p, (s.proc p).Single
  counted : ∀ b, (s.buf b).count = ∑ q, (s.proc q).refs.count b
  unlocked : ∀ p, ∀ x ∈ (s.proc p).held, (s.buf x.2).lock = none
  label : ∀ p, ∀ x ∈ (s.proc p).held, (s.buf x.2).label = x.1
  reads : ∀ p b l, (s.proc p).pc = .readWait b l → (s.buf b).label = l

theorem Proc.Single.length_refs (h : pr.Single) : pr.refs.length ≤ 1 := by
  rw [Proc.refs, List.length_append, List.length_map]
  by_cases hpc : pr.pc = .idle
  · rw [hpc]
    simpa [Pc.ref] using h.length
  · rw [h.held hpc]
    cases pr.pc.ref <;> simp

/-- The counters are far from wrapping around. -/
theorem Single.noWrap (h : Single s) (hn : n ≤ nrTasks) (e : Event D N n) : s.NoWrap e := by
  intro p _ b _
  have hle : ∑ q, (s.proc q).refs.count b ≤ ∑ _q : Fin n, 1 :=
    Finset.sum_le_sum fun q _ => (List.count_le_length).trans (h.proc q).length_refs
  have hcard : ∑ _q : Fin n, 1 = n := by simp
  rw [h.counted b]
  have : nrTasks = 64 := rfl
  omega

theorem Moves.breads {pc pc' : Pc N} (h : Moves s pc pc') (hpc : pc.Breads) (hne : pc ≠ .idle) :
    pc'.Breads := by
  cases h with
  | call | callSync => exact absurd rfl hne
  | search => exact ⟨Use.get.inj hpc.1, hpc.2⟩
  | wake => exact ⟨congrArg Use.get hpc.1, hpc.2⟩
  | @await r i => cases r <;> exact hpc
  | @clean r i => cases r <;> exact hpc
  | @written r i => cases r <;> exact hpc
  | null | syncEnd | unread => exact trivial
  | _ => exact hpc

/-- What a process in a `bread` holds is what the `bread` returns. -/
private theorem Trans.single (h : Trans s p c q f pr) (hs : (s.proc p).Single)
    (hne : (s.proc p).pc ≠ .idle) : pr.Single := by
  have hheld := hs.held hne
  have hbreads := hs.breads
  have hmid : ∀ {pc : Pc N}, pc.Breads → Proc.Single ⟨pc, (s.proc p).held⟩ := fun hpc =>
    ⟨hpc, fun _ => hheld, hs.length, hs.dev⟩
  have hend : ∀ {l : Label} {b : Fin N}, l.dev ≠ 0 →
      Proc.Single ⟨.idle, (l, b) :: (s.proc p).held⟩ := fun hdev => by
    refine ⟨trivial, fun h => absurd rfl h, by simp [hheld], fun x hx => ?_⟩
    rw [hheld, List.mem_singleton] at hx
    rw [hx]
    exact hdev
  cases h with
  | move h => exact hmid (h.breads hbreads hne)
  | release hpc | use hpc => exact absurd hpc hne
  | hit hpc =>
    rw [hpc] at hbreads
    exact hmid hbreads
  | hold hpc =>
    generalize (s.proc p).pc = pc at hpc hbreads
    cases hpc with
    | hash | get | bread => exact hend hbreads.2
    | read => exact hend hbreads
  | won hpc =>
    rw [hpc] at hbreads
    exact hend hbreads.2
  | leak | discard => exact hmid trivial
  | read hpc | wonRead hpc =>
    rw [hpc] at hbreads
    exact hmid hbreads.2
  | @take t l read pc hpc hlock hcount hpc' =>
    rw [hpc] at hbreads
    rcases hpc' with ⟨-, rfl⟩ | ⟨-, rfl⟩ <;> exact hmid hbreads
  | @write r i hpc =>
    rw [hpc] at hbreads
    cases r <;> exact hmid hbreads
  | lost hpc =>
    rw [hpc] at hbreads
    exact hmid ⟨congrArg Use.get hbreads.1, hbreads.2⟩
  | @put b r hpc =>
    rw [hpc] at hbreads
    cases r with
    | none => exact hmid trivial
    | some r => exact hmid hbreads

/-- A process takes a step of its own only in the middle of a call. -/
theorem State.next_run_pc (h : s.next (.run p) = some s') : (s.proc p).pc ≠ .idle := by
  obtain ⟨s₁, hs₁, -⟩ := next_act rfl h
  intro hpc
  simp [act, sleeps, hpc] at hs₁

namespace Single

/-- The process that takes a step holds at most one buffer afterwards. -/
private theorem proc_step {e : Event D N n} (hs : Single s) (he : s.Plain e)
    (hp : e.proc = some p) (h : s.next e = some s') (htrans : Trans s p c s'.queues s'.buf pr)
    (hproc : s'.proc = Function.update s.proc p pr) : pr.Single := by
  have hself := hs.proc p
  have hpr : pr = s'.proc p := by rw [hproc, Function.update_self]
  obtain ⟨s₁, hs₁, hs'⟩ := State.next_act hp h
  cases e with
  | run p' =>
    obtain rfl := Option.some.inj hp
    exact htrans.single hself (State.next_run_pc h)
  | call p' l u =>
    obtain rfl := Option.some.inj hp
    simp only [State.act] at hs₁
    split_ifs at hs₁ with hcall
    obtain rfl := Option.some.inj hs₁
    rw [hpr, hs']
    simp only [State.yield, State.setPc, Function.update_self]
    exact ⟨⟨he.1, hcall.2.1⟩, fun _ => he.2, hself.length, hself.dev⟩
  | sync p' =>
    obtain rfl := Option.some.inj hp
    simp only [State.act] at hs₁
    split_ifs at hs₁
    obtain rfl := Option.some.inj hs₁
    rw [hpr, hs']
    simp only [State.yield, State.setPc, Function.update_self]
    exact ⟨trivial, fun _ => he, hself.length, hself.dev⟩
  | brelse p' j =>
    obtain rfl := Option.some.inj hp
    simp only [State.act] at hs₁
    split_ifs at hs₁
    obtain ⟨x, hx, rfl⟩ := Option.map_eq_some_iff.mp hs₁
    rw [hpr, hs']
    simp only [State.yield, Function.update_self]
    have hlen := hself.length
    obtain ⟨hj, -⟩ := List.getElem?_eq_some_iff.mp hx
    have hnil : (s.proc p').held.eraseIdx j = [] := by
      rw [← List.length_eq_zero_iff, List.length_eraseIdx_of_lt hj]
      omega
    exact ⟨trivial, fun _ => hnil, by rw [hnil]; exact Nat.zero_le _,
      fun y hy => hself.dev y (List.mem_of_mem_eraseIdx hy)⟩
  | change p' q j d =>
    obtain rfl := Option.some.inj hp
    simp only [State.act] at hs₁
    split_ifs at hs₁
    obtain ⟨x, hx, rfl⟩ := Option.map_eq_some_iff.mp hs₁
    rw [hpr, hs']
    exact hself
  | fill => exact he.elim
  | disk | intr => simp [Event.proc] at hp

/-- The buffer that a process holds after a step is unlocked and has the right label. -/
private theorem held_trans (hs : Single s) (h : Trans s p c q f pr) (x : Label × Fin N)
    (hx : x ∈ pr.held) : (f x.2).lock = none ∧ (f x.2).label = x.1 := by
  have hold : ∀ {g : Fin N → Buf D}, x ∈ (s.proc p).held →
      (∀ b, (g b).lock = (s.buf b).lock ∧ (g b).label = (s.buf b).label) →
      (g x.2).lock = none ∧ (g x.2).label = x.1 := fun hmem hg => by
    rw [(hg x.2).1, (hg x.2).2]
    exact ⟨hs.unlocked p x hmem, hs.label p x hmem⟩
  have hempty : (s.proc p).pc ≠ .idle → x ∉ (s.proc p).held := fun hne => by
    rw [(hs.proc p).held hne]
    exact List.not_mem_nil
  cases h with
  | move => exact hold hx fun _ => ⟨rfl, rfl⟩
  | release => exact hold (List.mem_of_mem_eraseIdx hx) fun _ => ⟨rfl, rfl⟩
  | use =>
    refine hold hx fun b => ?_
    rw [Function.update_apply]
    split_ifs with hb
    · rw [hb]
      exact ⟨rfl, rfl⟩
    · exact ⟨rfl, rfl⟩
  | @hold b l hpc hlock =>
    have hne : (s.proc p).pc ≠ .idle := fun hi => by
      rw [hi] at hpc
      cases hpc
    obtain rfl := (List.mem_cons.mp hx).resolve_right (hempty hne)
    refine ⟨hlock, ?_⟩
    generalize hpc₀ : (s.proc p).pc = pc at hpc
    cases hpc with
    | hash hl | get hl | bread hl => exact hl
    | read => exact hs.reads p b l hpc₀
  | won hpc hread =>
    have hbreads := (hs.proc p).breads
    rw [hpc] at hbreads
    exact absurd (hread.symm.trans hbreads.1) (by simp)
  | hit hpc | read hpc | leak hpc | discard hpc | take hpc | write hpc | lost hpc | wonRead hpc
  | put hpc => exact absurd hx (hempty (by rw [hpc]; simp))

/-- A process that begins to read a block has a buffer with its label. -/
private theorem reads_trans (h : Trans s p c q f pr) {b : Fin N} {l : Label}
    (hpc' : pr.pc = .readWait b l) : (f b).label = l := by
  cases h with
  | move h =>
    dsimp only at hpc'
    generalize (s.proc p).pc = pc₀ at h
    rw [hpc'] at h
    cases h
  | use hpc => exact absurd (hpc.symm.trans hpc') (by simp)
  | read hpc hlock hl =>
    obtain ⟨rfl, rfl⟩ := Pc.readWait.inj hpc'
    rw [Function.update_self]
    exact hl
  | take hpc hlock hcount hor => rcases hor with ⟨-, rfl⟩ | ⟨-, rfl⟩ <;> simp at hpc'
  | wonRead =>
    obtain ⟨rfl, rfl⟩ := Pc.readWait.inj hpc'
    rw [Function.update_self]
    rfl
  | @put b r => cases r <;> simp [State.afterBrelse] at hpc'
  | release | hit | hold | leak | discard | write | lost | won => simp at hpc'

/-- Every step keeps the invariant. -/
theorem step {e : Event D N n} (hs : Single s) (hinv : Inv s) (he : s.OneBlock e)
    (hwrap : s.NoWrap e) (h : s.next e = some s') : Single s' := by
  rcases State.next_cases h with ⟨b, -, hdisk⟩ | ⟨p, hp, -, hpanic | ⟨pr, htrans, hproc⟩⟩
  · obtain ⟨-, hproc, hbuf⟩ := hdisk.frame
    refine ⟨fun p => ?_, fun c => ?_, fun p x hx => ?_, fun p x hx => ?_, fun p c l hpc => ?_⟩
    · rw [hproc]
      exact hs.proc p
    · rw [hproc, (hbuf c).2]
      exact hs.counted c
    · rw [hproc] at hx
      have hnone := hs.unlocked p x hx
      obtain ⟨t, ht, hs'⟩ := hdisk
      have hne : x.2 ≠ b := fun hxb => absurd (hnone.symm.trans (hxb ▸ ht)) (by simp)
      obtain ⟨-, -, rfl⟩ | ⟨-, -, rfl⟩ | ⟨-, rfl⟩ := hs'
      all_goals
        change (Function.update s.buf b _ x.2).lock = none
        rw [Function.update_of_ne hne]
        exact hnone
    · rw [hproc] at hx
      rw [(hbuf x.2).1]
      exact hs.label p x hx
    · rw [hproc] at hpc
      rw [(hbuf c).1]
      exact hs.reads p c l hpc
  · exact absurd hpanic hinv.no_panic
  · have hother : ∀ p' ≠ p, (s.proc p').held = [] := fun p' hne => by
      by_cases hidle : (s.proc p').pc = .idle
      · exact he.2 p hp p' hne hidle
      · exact (hs.proc p').held hidle
    have hheld : ∀ p' x, x ∈ (s'.proc p').held →
        (s'.buf x.2).lock = none ∧ (s'.buf x.2).label = x.1 := fun p' x hx => by
      rw [hproc] at hx
      by_cases hne : p' = p
      · subst hne
        rw [Function.update_self] at hx
        exact hs.held_trans htrans x hx
      · rw [Function.update_of_ne hne, hother p' hne] at hx
        simp at hx
    refine ⟨fun p' => ?_, fun b => ?_, fun p' x hx => (hheld p' x hx).1,
      fun p' x hx => (hheld p' x hx).2, fun p' b l hpc => ?_⟩
    · rw [hproc]
      by_cases hne : p' = p
      · subst hne
        rw [Function.update_self]
        exact hs.proc_step he.1 hp h htrans hproc
      · rw [Function.update_of_ne hne]
        exact hs.proc p'
    · obtain ⟨k, hbal, hk⟩ := htrans.balanced (hwrap p hp) (hinv.recycled p) b
      have hzero : k = 0 := by
        by_contra hne
        have hbreads := (hs.proc p).breads
        have hfrees := hk hne
        generalize (s.proc p).pc = pc at hbreads hfrees
        cases pc <;> simp only [Pc.frees] at hfrees
        rename_i u
        cases u <;> simp_all [Pc.frees, Pc.Breads]
      have hsum := sum_update_add s.proc (fun pr => pr.refs.count b) p pr
      have hold := hs.counted b
      rw [hproc]
      omega
    · rw [hproc] at hpc
      by_cases hne : p' = p
      · subst hne
        rw [Function.update_self] at hpc
        exact reads_trans htrans hpc
      · rw [Function.update_of_ne hne] at hpc
        have hmem : b ∈ (s.proc p').refs := by simp [Proc.refs, hpc, Pc.ref]
        rw [htrans.label_eq hinv hne hmem]
        exact hs.reads p' b l hpc

theorem init [NeZero N] (disk : Label → D) (data : Fin N → D) :
    Single (State.init disk data : State D N n) := by
  refine ⟨fun p => ⟨trivial, fun _ => rfl, Nat.zero_le _, fun x hx => ?_⟩, fun b => ?_,
    fun p x hx => ?_, fun p x hx => ?_, fun p b l hpc => ?_⟩
  · simp [State.init] at hx
  · simp [State.init, Proc.refs, Pc.ref]
  · simp [State.init] at hx
  · simp [State.init] at hx
  · simp [State.init] at hpc

end Single

/-! ### The copy of a block -/

/-- The buffer is the copy of its block: it is in the queues, or dirty. -/
def State.Live (s : State D N n) (b : Fin N) : Prop :=
  (s.buf b).label.dev ≠ 0 ∧ (¬ s.out b ∨ (s.buf b).dirt = true)

/-- The data of the block is still to come from the disk. -/
def Buf.Reading (x : Buf D) : Prop := ∃ t, x.lock = some t ∧ t.write = false ∧ t.taken = false

/-- The disk has not got the data of the buffer. -/
def Buf.Unwritten (x : Buf D) : Prop :=
  x.lock = none ∧ x.dirt = true ∨ ∃ t, x.lock = some t ∧ t.write = true ∧ t.taken = false

/-- A buffer whose block has been written last with `v`, while the disk has `d`. -/
structure Buf.Copies (x : Buf D) (v d : D) : Prop where
  data : ¬ x.Reading → x.data = v
  disk : ¬ x.Unwritten → d = v
  uptodate : x.lock = none → x.uptodate = true

/-- The cache and the disk are one copy of what has been written last. -/
structure Copy (s : State D N n) (V : Label → D) : Prop where
  unique : ∀ b b', s.Live b → s.Live b' → (s.buf b).label = (s.buf b').label → b = b'
  rest : ∀ l, l.dev ≠ 0 → (∀ b, s.Live b → (s.buf b).label ≠ l) → s.disk l = V l
  live : ∀ b, s.Live b → (s.buf b).Copies (V (s.buf b).label) (s.disk (s.buf b).label)

namespace Copy

/-- One buffer changes, but not its label; the value of its block may change, and so may the block
on the disk. -/
private theorem of_change (hc : Copy s V) {b : Fin N}
    (hother : ∀ d, d ≠ b → s'.buf d = s.buf d ∧ (s'.out d ↔ s.out d))
    (hlabel : (s'.buf b).label = (s.buf b).label) (hlive : s'.Live b → s.Live b)
    (hdisk : ∀ l, l ≠ (s.buf b).label → s'.disk l = s.disk l)
    (hV : ∀ l, l ≠ (s.buf b).label → V' l = V l)
    (hcopy : s.Live b → (s'.Live b → (s'.buf b).Copies (V' (s.buf b).label)
      (s'.disk (s.buf b).label)) ∧ (¬ s'.Live b → s'.disk (s.buf b).label = V' (s.buf b).label))
    (hdead : ¬ s.Live b → (s.buf b).label.dev ≠ 0 →
      s'.disk (s.buf b).label = s.disk (s.buf b).label ∧ V' (s.buf b).label = V (s.buf b).label) :
    Copy s' V' := by
  have hiff : ∀ d, d ≠ b → (s'.Live d ↔ s.Live d) := fun d hd => by
    rw [State.Live, State.Live, (hother d hd).1, (hother d hd).2]
  have hle : ∀ d, s'.Live d → s.Live d := fun d hd => by
    by_cases hdb : d = b
    · subst hdb
      exact hlive hd
    · exact (hiff d hdb).mp hd
  have hlabels : ∀ d, (s'.buf d).label = (s.buf d).label := fun d => by
    by_cases hdb : d = b
    · rw [hdb]
      exact hlabel
    · rw [(hother d hdb).1]
  refine ⟨fun d d' hd hd' heq => ?_, fun l hl hnone => ?_, fun d hd => ?_⟩
  · rw [hlabels, hlabels] at heq
    exact hc.unique d d' (hle d hd) (hle d' hd') heq
  · by_cases hlb : l = (s.buf b).label
    · subst hlb
      by_cases hb : s.Live b
      · exact (hcopy hb).2 fun hb' => hnone b hb' hlabel
      · rw [(hdead hb hl).1, (hdead hb hl).2]
        refine hc.rest _ hl fun d hd hdl => ?_
        have hdb : d ≠ b := fun h => hb (h ▸ hd)
        exact hnone d ((hiff d hdb).mpr hd) ((hlabels d).trans hdl)
    · rw [hdisk l hlb, hV l hlb]
      refine hc.rest l hl fun d hd hdl => ?_
      have hdb : d ≠ b := fun h => hlb (h ▸ hdl.symm)
      exact hnone d ((hiff d hdb).mpr hd) ((hlabels d).trans hdl)
  · by_cases hdb : d = b
    · subst hdb
      rw [hlabel]
      exact (hcopy (hlive hd)).1 hd
    · have hold := hc.live d (hle d hd)
      rw [(hother d hdb).1]
      by_cases hl : (s.buf d).label = (s.buf b).label
      · have hb : ¬ s.Live b := fun hb => hdb (hc.unique d b (hle d hd) hb hl)
        have hdev : (s.buf b).label.dev ≠ 0 := hl ▸ (hle d hd).1
        rw [hl] at hold ⊢
        rw [(hdead hb hdev).1, (hdead hb hdev).2]
        exact hold
      · rw [hdisk _ hl, hV _ hl]
        exact hold

/-- A buffer that was not the copy of a block gets a new label. -/
private theorem of_relabel (hc : Copy s V) {t : Fin N} (ht : ¬ s.Live t)
    (hother : ∀ d, d ≠ t → s'.buf d = s.buf d ∧ (s'.out d ↔ s.out d)) (hdisk : s'.disk = s.disk)
    (hnew : s'.Live t → (∀ d, s.Live d → (s.buf d).label ≠ (s'.buf t).label) ∧
      (s.disk (s'.buf t).label = V (s'.buf t).label →
        (s'.buf t).Copies (V (s'.buf t).label) (s.disk (s'.buf t).label))) :
    Copy s' V := by
  have hiff : ∀ d, d ≠ t → (s'.Live d ↔ s.Live d) := fun d hd => by
    rw [State.Live, State.Live, (hother d hd).1, (hother d hd).2]
  have hne : ∀ d, s.Live d → d ≠ t := fun d hd h => ht (h ▸ hd)
  have hfresh : s'.Live t → ∀ d, d ≠ t → s'.Live d → (s'.buf d).label ≠ (s'.buf t).label :=
    fun ht' d hdt hd => by
      rw [(hother d hdt).1]
      exact (hnew ht').1 d ((hiff d hdt).mp hd)
  refine ⟨fun d d' hd hd' heq => ?_, fun l hl hnone => ?_, fun d hd => ?_⟩
  · by_cases hdt : d = t <;> by_cases hdt' : d' = t
    · rw [hdt, hdt']
    · subst hdt
      exact absurd heq.symm (hfresh hd d' hdt' hd')
    · subst hdt'
      exact absurd heq (hfresh hd' d hdt hd)
    · rw [(hother d hdt).1, (hother d' hdt').1] at heq
      exact hc.unique d d' ((hiff d hdt).mp hd) ((hiff d' hdt').mp hd') heq
  · rw [hdisk]
    refine hc.rest l hl fun d hd => ?_
    have hold := hnone d ((hiff d (hne d hd)).mpr hd)
    rwa [(hother d (hne d hd)).1] at hold
  · rw [hdisk]
    by_cases hdt : d = t
    · subst hdt
      exact (hnew hd).2 (hc.rest _ hd.1 (hnew hd).1)
    · rw [(hother d hdt).1]
      exact hc.live d ((hiff d hdt).mp hd)

/-- The buffers are as they were. -/
private theorem of_same (hc : Copy s V) (hbuf : s'.buf = s.buf) (hout : ∀ b, s'.out b ↔ s.out b)
    (hdisk : s'.disk = s.disk) : Copy s' V := by
  have hiff : ∀ b, s'.Live b ↔ s.Live b := fun b => by
    rw [State.Live, State.Live, hbuf, hout]
  refine ⟨fun b b' hb hb' heq => ?_, fun l hl hnone => ?_, fun b hb => ?_⟩
  · rw [hbuf] at heq
    exact hc.unique b b' ((hiff b).mp hb) ((hiff b').mp hb') heq
  · rw [hdisk]
    refine hc.rest l hl fun b hb => ?_
    have hold := hnone b ((hiff b).mpr hb)
    rwa [hbuf] at hold
  · rw [hdisk, hbuf]
    exact hc.live b ((hiff b).mp hb)

/-- Only the counter of a buffer changes. -/
private theorem of_count (hc : Copy s V) {b : Fin N} {k : ℕ}
    (hbuf : s'.buf = Function.update s.buf b { s.buf b with count := k })
    (hout : ∀ b, s'.out b ↔ s.out b) (hdisk : s'.disk = s.disk) : Copy s' V := by
  have hb : s'.buf b = { s.buf b with count := k } := by rw [hbuf, Function.update_self]
  have hiff : s'.Live b ↔ s.Live b := by
    rw [State.Live, State.Live, hb, hout]
  refine hc.of_change (b := b) (fun d hd => ⟨?_, hout d⟩) (by rw [hb]) hiff.mp
    (fun l _ => by rw [hdisk]) (fun l _ => rfl) (fun hlive => ⟨fun _ => ?_, fun hno => ?_⟩)
    fun _ _ => ⟨by rw [hdisk], rfl⟩
  · rw [hbuf, Function.update_of_ne hd]
  · rw [hb, hdisk]
    have hold := hc.live b hlive
    exact ⟨hold.data, hold.disk, hold.uptodate⟩
  · exact absurd (hiff.mpr hlive) hno

end Copy

/-- What has been written last, after a change. -/
def store (V : Label → D) : Option ((Label × Fin N) × D) → Label → D
  | some (x, d) => Function.update V x.1 d
  | none => V

/-- The event brings no block back into the queues while another process recycles a dirty buffer of
it. -/
def State.Written (s : State D N n) (e : Event D N n) : Prop :=
  ∀ p ∈ e.proc, ∀ l ∈ s.relabels p, ∀ p' ≠ p, ∀ b ∈ (s.proc p').pc.recycles,
    (s.buf b).label = l → (s.buf b).dirt = false

instance (s : State D N n) : DecidablePred s.Written := fun e =>
  inferInstanceAs (Decidable (∀ p ∈ e.proc, ∀ l ∈ s.relabels p, ∀ p' ≠ p,
    ∀ b ∈ (s.proc p').pc.recycles, (s.buf b).label = l → (s.buf b).dirt = false))

namespace Copy

section Trans

variable (hc : Copy s V) (hinv : Inv s) (hs : Settled s) (hsingle : Single s)

include hc hinv hs hsingle

/-- Every step of a process keeps the copies. -/
private theorem trans (h : Trans s p c q f pr) (hbuf : s'.buf = f)
    (hproc : s'.proc = Function.update s.proc p pr) (hdisk : s'.disk = s.disk)
    (hwritten : ∀ l ∈ s.relabels p, ∀ p' ≠ p, ∀ b ∈ (s.proc p').pc.recycles,
      (s.buf b).label = l → (s.buf b).dirt = false) : Copy s' (store V c) := by
  have hself := hs.passed p
  have hbreads := (hsingle.proc p).breads
  have hsame : pr.pc.recycles = (s.proc p).pc.recycles → ∀ b, s'.out b ↔ s.out b :=
    out_of_same hproc
  -- A buffer that a process refers to is in the queues if the process does not recycle it.
  have hnotOut : ∀ {b}, b ∈ (s.proc p).refs → (s.proc p).pc.recycles = none → ¬ s.out b := by
    rintro b hb hr ⟨p', hp'⟩
    have hne : p ≠ p' := fun h => by
      rw [← h, hr] at hp'
      simp at hp'
    exact hinv.not_mem_refs hp' hne hb
  have hupd : ∀ {b : Fin N} {x : Buf D}, s'.buf = Function.update s.buf b x →
      s'.buf b = x ∧ ∀ d, d ≠ b → s'.buf d = s.buf d := fun hb =>
    ⟨by rw [hb, Function.update_self], fun d hd => by rw [hb, Function.update_of_ne hd]⟩
  cases h with
  | move h => exact hc.of_same hbuf (hsame h.ref_eq.2) hdisk
  | release hpc => exact hc.of_same hbuf (hsame (by rw [hpc]; rfl)) hdisk
  | hold hpc =>
    refine hc.of_same hbuf (hsame ?_) hdisk
    generalize (s.proc p).pc = pc at hpc
    cases hpc <;> rfl
  | @use q x d up hpc hx hup =>
    have hlock := hsingle.unlocked q x hx
    have hlabel := hsingle.label q x hx
    have hout : ¬ s.out x.2 := fun ho => hinv.not_held ho hx rfl
    obtain ⟨hb, hother⟩ := hupd hbuf
    have hlive : (s.buf x.2).label.dev ≠ 0 → s.Live x.2 := fun hdev => ⟨hdev, .inl hout⟩
    refine hc.of_change (b := x.2) (fun d hd => ⟨hother d hd, hsame rfl d⟩) (by rw [hb])
      (fun hl => hlive (by rw [State.Live, hb] at hl; exact hl.1)) (fun l _ => by rw [hdisk])
      (fun l hl => Function.update_of_ne (hlabel ▸ hl) _ _) (fun hl => ⟨fun _ => ?_, fun hno => ?_⟩)
      fun hno hdev => absurd (hlive hdev) hno
    · rw [hb, hlabel]
      refine ⟨fun _ => ?_, fun hun => ?_, fun _ => ?_⟩
      · rw [store, Function.update_self]
      · exact absurd (.inl ⟨hlock, rfl⟩) hun
      · have hold := (hc.live x.2 hl).uptodate hlock
        rcases hup with rfl | rfl
        · exact hold
        · rfl
    · refine absurd ⟨?_, .inr ?_⟩ hno
      · rw [hb]
        exact hl.1
      · rw [hb]
  | hit hpc => exact hc.of_count hbuf (hsame (by rw [hpc]; rfl)) hdisk
  | @put b r hpc =>
    refine hc.of_count hbuf (hsame ?_) hdisk
    rw [hpc]
    cases r <;> rfl
  | @read b l hpc hlock hl hup =>
    have hout : ¬ s.out b := hnotOut (by simp [Proc.refs, hpc, Pc.ref]) (by rw [hpc]; rfl)
    have hdev : ¬ s.Live b := fun hlive =>
      absurd (((hc.live b hlive).uptodate hlock).symm.trans hup) (by simp)
    obtain ⟨hb, hother⟩ := hupd hbuf
    refine hc.of_change (b := b) (fun d hd => ⟨hother d hd, hsame (by rw [hpc]; rfl) d⟩)
      (by rw [hb]) (fun hlive => ?_) (fun l _ => by rw [hdisk]) (fun l _ => rfl)
      (fun hlive => absurd hlive hdev) fun _ _ => ⟨by rw [hdisk], rfl⟩
    rw [State.Live, hb] at hlive
    exact ⟨hlive.1, .inl hout⟩
  | leak hpc | discard hpc =>
    rw [hpc] at hbreads
    simp [Pc.Breads] at hbreads
  | @take t l read pc hpc hlock hcount hpc' =>
    have hout : ¬ s.out t := hinv.not_out_of_count hcount
    have hr' : pc.recycles = some t := by
      rcases hpc' with ⟨-, rfl⟩ | ⟨-, rfl⟩ <;> rfl
    obtain ⟨hb, hother⟩ := hupd hbuf
    refine hc.of_change (b := t) (fun d hd => ⟨hother d hd, ?_⟩) (by rw [hb]) (fun hlive => ?_)
      (fun l _ => by rw [hdisk]) (fun l _ => rfl) (fun hlive => ⟨fun _ => ?_, fun hno => ?_⟩)
      fun _ _ => ⟨by rw [hdisk], rfl⟩
    · rw [out_of_take hproc (by rw [hpc]; rfl) hr']
      simp [hd]
    · rw [State.Live, hb] at hlive
      exact ⟨hlive.1, .inl hout⟩
    · rw [hb, hdisk]
      have hold := hc.live t hlive
      exact ⟨hold.data, hold.disk, hold.uptodate⟩
    · rw [hdisk]
      refine (hc.live t hlive).disk fun hun => hno ⟨by rw [hb]; exact hlive.1, .inr ?_⟩
      rw [hb]
      rcases hun with ⟨-, hd⟩ | ⟨t', ht', -⟩
      · exact hd
      · exact absurd (hlock.symm.trans ht') (by simp)
  | @write r i hpc hlock hdirt =>
    obtain ⟨hb, hother⟩ := hupd hbuf
    have hout := hsame (by rw [hpc]; cases r <;> rfl)
    have hiff : s'.Live i ↔ s.Live i := by
      rw [State.Live, State.Live, hb, hout]
    refine hc.of_change (b := i) (fun d hd => ⟨hother d hd, hout d⟩) (by rw [hb]) hiff.mp
      (fun l _ => by rw [hdisk]) (fun l _ => rfl)
      (fun hlive => ⟨fun _ => ?_, fun hno => absurd (hiff.mpr hlive) hno⟩)
      fun _ _ => ⟨by rw [hdisk], rfl⟩
    rw [hb]
    refine ⟨fun _ => (hc.live i hlive).data ?_, fun hun => ?_, fun h => absurd h (by simp)⟩
    · rintro ⟨t, ht, -⟩
      exact absurd (hlock.symm.trans ht) (by simp)
    · exact absurd (.inr ⟨_, rfl, rfl, rfl⟩) hun
  | @lost r hpc =>
    rw [hpc] at hself
    have hr : (s.proc p).pc.recycles = some r.tmp := by rw [hpc]; rfl
    obtain ⟨hb, hother⟩ := hupd hbuf
    refine hc.of_relabel (t := r.tmp) (fun hlive => ?_) (fun d hd => ⟨hother d hd, ?_⟩) hdisk
      fun hlive => ?_
    · rcases hlive.2 with hno | hdirt
      · exact hno ⟨p, hr⟩
      · exact absurd (hself.2.symm.trans hdirt) (by simp)
    · rw [out_of_insert hinv hproc hr rfl]
      simp [hd]
    · rw [State.Live, hb] at hlive
      exact absurd rfl hlive.1
  | won hpc hread =>
    rw [hpc] at hbreads
    exact absurd (hread.symm.trans hbreads.1) (by simp)
  | @wonRead r hpc hread hf =>
    rw [hpc] at hself
    have hr : (s.proc p).pc.recycles = some r.tmp := by rw [hpc]; rfl
    obtain ⟨hb, hother⟩ := hupd hbuf
    have hdead : ¬ s.Live r.tmp := fun hlive => by
      rcases hlive.2 with hno | hdirt
      · exact hno ⟨p, hr⟩
      · exact absurd (hself.2.symm.trans hdirt) (by simp)
    refine hc.of_relabel hdead (fun d hd => ⟨hother d hd, ?_⟩) hdisk
      fun hlive => ⟨fun d hd hdl => ?_, fun hrest => ?_⟩
    · rw [out_of_insert hinv hproc hr rfl]
      simp [hd]
    · rw [State.Live, hb] at hlive
      rw [hb] at hdl
      by_cases ho : s.out d
      · obtain ⟨p', hp'⟩ := ho
        have hne : p' ≠ p := fun h => by
          rw [h, hr] at hp'
          exact hdead (Option.some.inj hp' ▸ hd)
        have hclean := hwritten r.label (by simp [State.relabels, hpc]) p' hne d hp' hdl
        rcases hd.2 with hno | hdirt
        · exact hno ⟨p', hp'⟩
        · exact absurd (hclean.symm.trans hdirt) (by simp)
      · exact hinv.label_new ⟨p, hr⟩ (.inr hf) hlive.1 d ho hdl
    · rw [hb] at hrest ⊢
      refine ⟨fun hreading => ?_, fun _ => hrest, fun h => absurd h (by simp)⟩
      exact absurd ⟨_, rfl, rfl, rfl⟩ hreading

end Trans

/-- Every step of the disk keeps the copies. -/
private theorem transferred (hc : Copy s V) (hs : Settled s) {b : Fin N}
    (h : s.Transferred b s') : Copy s' V := by
  have hproc := h.frame.2.1
  have hlabel : (s'.buf b).label = (s.buf b).label := (h.frame.2.2 b).1
  have hout : ∀ d, s'.out d ↔ s.out d := fun d => by
    rw [State.out, State.out, hproc]
  obtain ⟨t, ht, h⟩ := h
  have hbuf : ∀ {x : Buf D}, s'.buf = Function.update s.buf b x →
      s'.buf b = x ∧ ∀ d, d ≠ b → s'.buf d = s.buf d ∧ (s'.out d ↔ s.out d) := fun hb =>
    ⟨by rw [hb, Function.update_self],
      fun d hd => ⟨by rw [hb, Function.update_of_ne hd], hout d⟩⟩
  rcases h with ⟨htaken, hwrite, rfl⟩ | ⟨htaken, hwrite, rfl⟩ | ⟨htaken, rfl⟩
  · -- The disk takes the data of a dirty buffer.
    obtain ⟨hb, hother⟩ := hbuf rfl
    have htl := hs.label b t ht
    have hlive : (s.buf b).label.dev ≠ 0 → s.Live b := fun hdev =>
      ⟨hdev, .inr (hs.dirt b t ht hwrite)⟩
    refine hc.of_change hother hlabel (fun hl => hlive (hlabel ▸ hl.1))
      (fun l hl => Function.update_of_ne (htl ▸ hl) _ _) (fun l _ => rfl)
      (fun hl => ⟨fun _ => ?_, fun hno => ?_⟩) fun hno hdev => absurd (hlive hdev) hno
    · have hdata : (s.buf b).data = V (s.buf b).label := by
        refine (hc.live b hl).data ?_
        rintro ⟨t', ht', hw, -⟩
        obtain rfl := Option.some.inj (ht.symm.trans ht')
        exact absurd (hwrite.symm.trans hw) (by simp)
      rw [hb]
      refine ⟨fun _ => hdata, fun _ => ?_, fun h => absurd h (by simp)⟩
      change Function.update s.disk t.label (s.buf b).data (s.buf b).label = _
      rw [htl, Function.update_self, hdata]
    · refine absurd ⟨hlabel ▸ hl.1, .inr ?_⟩ hno
      rw [hb]
      exact hs.dirt b t ht hwrite
  · -- The disk delivers the data.
    obtain ⟨hb, hother⟩ := hbuf rfl
    refine hc.of_change hother hlabel (fun hl => ?_) (fun l _ => rfl) (fun l _ => rfl)
      (fun hl => ⟨fun _ => ?_, fun hno => ?_⟩) fun _ _ => ⟨rfl, rfl⟩
    · rw [State.Live, hb, hout] at hl
      exact hl
    · have hdisk : s.disk (s.buf b).label = V (s.buf b).label := (hc.live b hl).disk fun hun => by
        rcases hun with ⟨hnone, -⟩ | ⟨t', ht', hw, -⟩
        · exact absurd (hnone.symm.trans ht) (by simp)
        · obtain rfl := Option.some.inj (ht.symm.trans ht')
          exact absurd (hwrite.symm.trans hw) (by simp)
      rw [hb]
      refine ⟨fun _ => ?_, fun _ => hdisk, fun h => absurd h (by simp)⟩
      change s.disk t.label = _
      rw [hs.label b t ht, hdisk]
    · refine absurd ?_ hno
      rw [State.Live, hb, hout]
      exact hl
  · -- The transfer ends.
    obtain ⟨hb, hother⟩ := hbuf rfl
    have hcopies : s.Live b → (s.buf b).data = V (s.buf b).label ∧
        s.disk (s.buf b).label = V (s.buf b).label := fun hl => by
      refine ⟨(hc.live b hl).data ?_, (hc.live b hl).disk ?_⟩
      · rintro ⟨t', ht', -, hno⟩
        obtain rfl := Option.some.inj (ht.symm.trans ht')
        exact absurd (htaken.symm.trans hno) (by simp)
      · rintro (⟨hnone, -⟩ | ⟨t', ht', -, hno⟩)
        · exact absurd (hnone.symm.trans ht) (by simp)
        · obtain rfl := Option.some.inj (ht.symm.trans ht')
          exact absurd (htaken.symm.trans hno) (by simp)
    refine hc.of_change hother hlabel (fun hl => ?_) (fun l _ => rfl) (fun l _ => rfl)
      (fun hl => ⟨fun _ => ?_, fun _ => (hcopies hl).2⟩) fun _ _ => ⟨rfl, rfl⟩
    · rw [State.Live, hb, hout] at hl
      exact ⟨hl.1, .inl (hl.2.resolve_right (by simp))⟩
    · rw [hb]
      exact ⟨fun _ => (hcopies hl).1, fun _ => (hcopies hl).2, fun _ => rfl⟩

/-- Every step keeps the copies. -/
theorem step {e : Event D N n} (hc : Copy s V) (hinv : Inv s) (hs : Settled s)
    (hsingle : Single s) (he : s.Written e) (h : s.next e = some s') :
    Copy s' (store V (s.changes e)) := by
  rcases State.next_cases h with ⟨b, hb, hdisk⟩ | ⟨p, hp, hd, hpanic | ⟨pr, htrans, hproc⟩⟩
  · have hchanges : s.changes e = none := by
      rcases hb with rfl | rfl <;> rfl
    rw [hchanges]
    exact hc.transferred hs hdisk
  · exact absurd hpanic hinv.no_panic
  · exact hc.trans hinv hs hsingle htrans rfl hproc hd (he p hp)

theorem init [NeZero N] (disk : Label → D) (data : Fin N → D) :
    Copy (State.init disk data : State D N n) disk :=
  ⟨fun _ _ hb => absurd rfl hb.1, fun _ _ _ => rfl, fun _ hb => absurd rfl hb.1⟩

end Copy

/-! ### Runs -/

/-- The effect of an event on the cache and the disk, and on what has been written last. -/
def State.nextStore (σ : State D N n × (Label → D)) (e : Event D N n) :
    Option (State D N n × (Label → D)) :=
  (σ.1.next e).map fun s' => (s', store σ.2 (σ.1.changes e))

/-- **Single copy.** In every run of at most 64 processes that each read a block with `bread`,
change it and release it, or call `sys_sync`, and in which no block is brought back into the queues
while another process recycles a dirty buffer of it, the buffer that a `bread` has returned has the
data that has been written to its block last. -/
theorem bread_eq_store [NeZero N] {disk : Label → D} {data : Fin N → D} {es : List (Event D N n)}
    (hn : n ≤ nrTasks)
    (h : Runs (fun σ e σ' => State.nextStore σ e = some σ' ∧ σ.1.OneBlock e ∧ σ.1.Written e)
      (State.init disk data, disk) es (s, V)) :
    ∀ p, ∀ x ∈ (s.proc p).held, (s.buf x.2).label = x.1 ∧ (s.buf x.2).data = V x.1 := by
  have hinv : Inv s ∧ Settled s ∧ Single s ∧ Copy s V := by
    refine h.invariant (I := fun σ => Inv σ.1 ∧ Settled σ.1 ∧ Single σ.1 ∧ Copy σ.1 σ.2) ?_
      ⟨Inv.init disk data, Settled.init disk data, Single.init disk data, Copy.init disk data⟩
    rintro ⟨s, V⟩ e ⟨s', V'⟩ ⟨hinv, hs, hsingle, hc⟩ ⟨hnext, hone, hwritten⟩
    obtain ⟨s₁, hs₁, heq⟩ := Option.map_eq_some_iff.mp hnext
    obtain ⟨rfl, rfl⟩ := Prod.mk.inj heq
    have hwrap := hsingle.noWrap hn e
    exact ⟨hinv.step hwrap hs₁, hs.step hinv hs₁, hsingle.step hinv hone hwrap hs₁,
      hc.step hinv hs hsingle hwritten hs₁⟩
  obtain ⟨hinv, -, hsingle, hc⟩ := hinv
  intro p x hx
  have hlabel := hsingle.label p x hx
  have hlock := hsingle.unlocked p x hx
  have hlive : s.Live x.2 :=
    ⟨by rw [hlabel]; exact (hsingle.proc p).dev x hx, .inl fun ho => hinv.not_held ho hx rfl⟩
  have hdata := (hc.live x.2 hlive).data fun ⟨t, ht, _⟩ => absurd (hlock.symm.trans ht) (by simp)
  rw [hlabel] at hdata
  exact ⟨hlabel, hdata⟩

/-- A process reads a block of device 1 into a given buffer that is clean or new. -/
def readInto {n : ℕ} (p : Fin n) (k : ℕ) (b : Fin 3) : List (Event ℕ 3 n) :=
  [.call p ⟨1, k⟩ (.get true), .run p, .run p, .run p, .run p, .disk b, .intr b, .run p]

/-- A process reads block 2, and another one waits for the buffer. The first one writes it. -/
def writeRead : List (Event ℕ 3 2) :=
  [.call 0 ⟨1, 2⟩ (.get true), .run 0, .run 0, .run 0, .run 0, .call 1 ⟨1, 2⟩ (.get true), .run 1,
    .disk 0, .intr 0, .run 0, .change 0 0 0 7, .brelse 0 0, .run 0, .run 1]

/-- The second one finds what the first one has written. -/
theorem bread_eq_store_writeRead : ∃ s V,
    Runs (fun σ e σ' => State.nextStore σ e = some σ' ∧ σ.1.OneBlock e ∧ σ.1.Written e)
      ((State.init (fun _ => 0) fun _ => 0 : State ℕ 3 2), fun _ => 0) writeRead.reverse (s, V) ∧
    (⟨1, 2⟩, 0) ∈ (s.proc 1).held ∧ V ⟨1, 2⟩ = 7 ∧ (s.buf 0).data = 7 := by
  have hexec : ((exec (fun σ e => (State.nextStore σ e).filter fun _ =>
      σ.1.OneBlock e ∧ σ.1.Written e)
      ((State.init (fun _ => 0) fun _ => 0 : State ℕ 3 2), fun _ => 0) writeRead).map fun σ =>
        ((σ.1.proc 1).held, σ.2 ⟨1, 2⟩)) = some ([(⟨1, 2⟩, 0)], 7) := by
    decide +kernel
  obtain ⟨⟨s, V⟩, hs, hend⟩ := Option.map_eq_some_iff.mp hexec
  obtain ⟨(hheld : (s.proc 1).held = _), hV⟩ := Prod.mk.inj hend
  have hrun := runs_of_exec_guarded hs
  have hmem : ((⟨1, 2⟩, 0) : Label × Fin 3) ∈ (s.proc 1).held := by simp [hheld]
  exact ⟨s, V, hrun, hmem, hV, ((bread_eq_store (by decide) hrun 1 _ hmem).2).trans hV⟩

/-- Block 2 is written and released, and so is block 4. The second process recycles the buffer of
block 2 and waits for block 4 to be written first. The third process then reads block 2 from the
disk. -/
def readTooEarly : List (Event ℕ 3 3) :=
  readInto 0 1 0 ++ [.brelse 0 0, .run 0] ++
  readInto 0 2 1 ++ [.change 0 0 0 7, .brelse 0 0, .run 0] ++
  readInto 0 3 2 ++ [.brelse 0 0, .run 0] ++
  readInto 0 4 0 ++ [.change 0 0 0 8, .brelse 0 0, .run 0] ++
  [.call 1 ⟨1, 5⟩ (.get true), .run 1, .run 1, .run 1, .run 1, .run 1] ++
  readInto 2 2 2

/-- A `bread` that begins after another process has changed and released the block returns the old
data of the disk. -/
theorem bread_ne_store : ∃ es s V,
    Runs (fun σ e σ' => State.nextStore σ e = some σ' ∧ σ.1.OneBlock e)
      ((State.init (fun _ => 0) fun _ => 0 : State ℕ 3 3), fun _ => 0) es (s, V) ∧
    (⟨1, 2⟩, 2) ∈ (s.proc 2).held ∧ (s.buf 2).data ≠ V ⟨1, 2⟩ := by
  have hexec : ((exec (fun σ e => (State.nextStore σ e).filter fun _ => σ.1.OneBlock e)
      ((State.init (fun _ => 0) fun _ => 0 : State ℕ 3 3), fun _ => 0) readTooEarly).map fun σ =>
        ((σ.1.proc 2).held, (σ.1.buf 2).data, σ.2 ⟨1, 2⟩)) = some ([(⟨1, 2⟩, 2)], 0, 7) := by
    decide +kernel
  obtain ⟨⟨s, V⟩, hs, hend⟩ := Option.map_eq_some_iff.mp hexec
  simp only [Prod.mk.injEq] at hend
  obtain ⟨(hheld : (s.proc 2).held = _), hdata, hV⟩ := hend
  refine ⟨_, s, V, runs_of_exec_guarded hs, by simp [hheld], fun heq => ?_⟩
  exact absurd (hdata.symm.trans (heq.trans hV)) (by simp)

end Linux001.BufferCache
