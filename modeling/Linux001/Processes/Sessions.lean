import Linux001.Processes.Life

/-!
# Sessions and their terminals

A process that calls `sys_setsid` becomes the leader of a session that has its number. Its children
are in the session too, and inherit its terminal. Only a leader without a terminal gets one, when it
opens it. A session is known by the number of its leader, which is free again when the leader is
released; `find_empty_process` looks at the numbers of processes only, so that a new process may get
the number of an old session once `last_pid` has begun again at 1.

## Main definitions

* `Ascends`: the search for a number does not begin again at 1.
* `Sound`: what holds of the sessions.

## Main results

* `sessions_sound`: as long as the numbers ascend, a leader has the number of its session and group,
  a session has at most one leader, and its processes share one terminal.
-/

namespace Linux001.Processes

open Signals (Word)

variable {s s' s₁ : System} {p q q' r r' : Task} {e : Event} {b : Bool} {i j c : ℕ}
  {es : List (ℕ × Event)}

/-- The search for a number does not begin again at 1. -/
def Ascends (s : System) (e : ℕ × Event) : Prop :=
  ∀ nr pid, e.2 = .fork nr pid ∨ e.2 = .forkFails pid → s.lastPid.toInt < pid.toInt

/-- A leader has the number of its session and its group, a process of a session whose leader is
there knows it, and the processes of a session that have a terminal have the same one, which is that
of the leader. -/
structure Sound (s : System) : Prop where
  le : ∀ i q, s.task i = some q →
    q.pid.toInt ≤ s.lastPid.toInt ∧ q.session.toInt ≤ s.lastPid.toInt
  leader : ∀ i q, s.task i = some q → q.leader = true → q.session = q.pid ∧ q.pgrp = q.pid
  founder : ∀ i j q r, s.task i = some q → s.task j = some r → r.pid = q.session →
    r.leader = true ∨ q.session = 0
  idle : ∀ q, s.task 0 = some q → q.leader = false
  noTty : ∀ i q, s.task i = some q → q.session = 0 → q.tty < 0
  terminal : ∀ i j q r, s.task i = some q → s.task j = some r → q.session = r.session →
    0 ≤ q.tty → (0 ≤ r.tty ∨ r.leader = true) → r.tty = q.tty

/-- At most one process of a session is its leader. -/
theorem Sound.leader_unique (h : Sound s) (ho : Orderly s) (hq : s.task i = some q)
    (hr : s.task j = some r) (hsession : q.session = r.session) (hlq : q.leader = true)
    (hlr : r.leader = true) : i = j :=
  ho.inj i j q r hq hr
    ((h.leader i q hq hlq).1.symm.trans (hsession.trans (h.leader j r hr hlr).1))

/-! ### Steps -/

/-- The fields of a task that belong to its session are the same. -/
structure Task.SameSession (q q' : Task) : Prop where
  pid : q'.pid = q.pid
  session : q'.session = q.session
  leader : q'.leader = q.leader
  tty : q'.tty = q.tty
  pgrp : q.leader = true → q'.pgrp = q.pgrp

/-- Only `sys_setsid` and the opening of a terminal change what belongs to the session, and
`sys_setpgid` changes the group of a process that is not a leader. -/
theorem Section.sameSession (h : Section s p e s₁ b) (hq : s.task i = some q)
    (he : i ≠ s.current ∨ e ≠ .setsid ∧ ∀ minor, e ≠ .openTty minor) :
    q.SameSession (effect s p i q e) := by
  cases h with
  | setsid _ _ _ =>
    rw [effect, if_neg (he.resolve_right fun h => h.1 rfl)]
    exact ⟨rfl, rfl, rfl, rfl, fun _ => rfl⟩
  | openTty minor _ =>
    have hi := he.resolve_right fun h => h.2 minor rfl
    rw [effect, if_neg fun hc => hi hc.1]
    exact ⟨rfl, rfl, rfl, rfl, fun _ => rfl⟩
  | setpgid pid pgid _ hset =>
    obtain ⟨j, r, hj, hr, hleader, -, -⟩ := sysSetpgid_eq_some hset
    refine ⟨effect_pid .., ?_, ?_, ?_, fun hl => ?_⟩
    · rw [effect]
      split_ifs <;> rfl
    · rw [effect]
      split_ifs <;> rfl
    · rw [effect]
      split_ifs <;> rfl
    · have hi : s.slotOf p pid ≠ some i := by
        intro hi
        obtain rfl : j = i := Option.some.inj (hj.symm.trans hi)
        obtain rfl := Option.some.inj (hr.symm.trans hq)
        cases hleader.symm.trans hl
      rw [effect, if_neg hi]
  | fork | forkFails | vanish | setTtyPgrp => exact ⟨rfl, rfl, rfl, rfl, fun _ => rfl⟩
  | _ =>
    simp only [effect, Task.doTimer, Task.raise]
    split_ifs <;> exact ⟨rfl, rfl, rfl, rfl, fun _ => rfl⟩

theorem Task.SameSession.trans (h : q.SameSession q') (h' : q'.SameSession r) : q.SameSession r :=
  ⟨h'.pid.trans h.pid, h'.session.trans h.session, h'.leader.trans h.leader, h'.tty.trans h.tty,
    fun hl => (h'.pgrp (h.leader.trans hl)).trans (h.pgrp hl)⟩

theorem Task.Stirred.sameSession (h : q.Stirred q') : q.SameSession q' :=
  ⟨h.pid, (congrArg Task.session h.same).trans rfl, (congrArg Task.leader h.same).trans rfl,
    (congrArg Task.tty h.same).trans rfl, fun _ => h.pgrp⟩

/-- The task `q'` in the slot `i` belongs to a session as the task `q` in the slot `j` did, and is
the same process, or a new one that is not a leader. -/
structure Follows (s : System) (i : ℕ) (q' : Task) (j : ℕ) (q : Task) : Prop where
  session : q'.session = q.session
  tty : q'.tty = q.tty
  same : (j = i ∧ q.SameSession q') ∨ q'.leader = false ∧ s.lastPid.toInt < q'.pid.toInt

theorem Follows.leader (h : Follows s i q' j q) (hl : q'.leader = true) : j = i ∧
    q.SameSession q' := by
  refine h.same.resolve_right fun hnew => ?_
  cases hnew.1.symm.trans hl

namespace Turn

variable (h : Turn s p e s₁ s' b)

include h

/-- Numbers ascend. -/
theorem lastPid_le (ha : Ascends s (c, e)) : s.lastPid.toInt ≤ s'.lastPid.toInt := by
  rw [h.lastPid]
  rcases h.ends.lastPid_eq with heq | ⟨nr, pid, n, he, heq, -⟩
  · rw [heq]
  · rw [heq]
    exact (ha nr pid he).le

/-- In other steps than `sys_setsid` and the opening of a terminal, every process belongs to the
session of a process that has been there. -/
theorem follows (ha : Ascends s (c, e))
    (he : e ≠ .setsid ∧ ∀ minor, e ≠ .openTty minor) (hq' : s'.task i = some q') :
    ∃ j q, s.task j = some q ∧ Follows s i q' j q := by
  rcases h.origin hq' with ⟨pid, rfl, hstir⟩ | ⟨q, hq, -, hstir⟩
  · have hsame := hstir.sameSession
    refine ⟨s.current, p, h.current, hsame.session, hsame.tty, .inr ⟨hsame.leader, ?_⟩⟩
    rw [hsame.pid]
    exact ha i pid (.inl rfl)
  · have hsame := (h.ends.sameSession hq (.inr he)).trans hstir.sameSession
    exact ⟨i, q, hq, hsame.session, hsame.tty, .inl ⟨rfl, hsame⟩⟩

/-- The number of a process is at most `last_pid`. -/
theorem pid_le (hs : Sound s) (ha : Ascends s (c, e)) (hq' : s'.task i = some q') :
    q'.pid.toInt ≤ s'.lastPid.toInt := by
  rcases h.origin hq' with ⟨pid, rfl, hstir⟩ | ⟨q, hq, -, hstir⟩
  · have hlast : s'.lastPid = pid := by
      rw [h.lastPid]
      have hends := h.ends
      cases hends
      rfl
    rw [hlast, hstir.pid]
    exact le_rfl
  · rw [hstir.pid, effect_pid]
    exact (hs.le i q hq).1.trans (h.lastPid_le ha)

/-- A step other than `sys_setsid` and the opening of a terminal. -/
theorem sound_of_follows (hs : Sound s) (ha : Ascends s (c, e))
    (he : e ≠ .setsid ∧ ∀ minor, e ≠ .openTty minor) : Sound s' := by
  refine ⟨fun i q' hq' => ?_, fun i q' hq' hl => ?_, fun i j q' r' hq' hr' hpid => ?_,
    fun q' hq' => ?_, fun i q' hq' hsession => ?_,
    fun i j q' r' hq' hr' hsession htty hr => ?_⟩
  · obtain ⟨j, q, hq, hf⟩ := h.follows ha he hq'
    exact ⟨h.pid_le hs ha hq', hf.session ▸ (hs.le j q hq).2.trans (h.lastPid_le ha)⟩
  · obtain ⟨j, q, hq, hf⟩ := h.follows ha he hq'
    obtain ⟨rfl, hsame⟩ := hf.leader hl
    have hlq : q.leader = true := hsame.leader.symm.trans hl
    rw [hsame.session, hsame.pid, hsame.pgrp hlq]
    exact hs.leader j q hq hlq
  · obtain ⟨i', q, hq, hfq⟩ := h.follows ha he hq'
    obtain ⟨j', r, hr, hfr⟩ := h.follows ha he hr'
    rw [hfq.session] at hpid ⊢
    rcases hfr.same with ⟨rfl, hsame⟩ | ⟨-, hnew⟩
    · rw [hsame.leader]
      exact hs.founder i' j' q r hq hr (hsame.pid.symm.trans hpid)
    · -- A new number is not that of a session.
      rw [hpid] at hnew
      exact absurd (hs.le i' q hq).2 (by omega)
  · obtain ⟨j, q, hq, hf⟩ := h.follows ha he hq'
    rw [← Bool.not_eq_true]
    intro hl
    obtain ⟨rfl, hsame⟩ := hf.leader hl
    cases (hs.idle q hq).symm.trans (hsame.leader.symm.trans hl)
  · obtain ⟨j, q, hq, hf⟩ := h.follows ha he hq'
    rw [hf.tty]
    exact hs.noTty j q hq (hf.session.symm.trans hsession)
  · obtain ⟨i', q, hq, hfq⟩ := h.follows ha he hq'
    obtain ⟨j', r, hr', hfr⟩ := h.follows ha he hr'
    rw [hfq.session, hfr.session] at hsession
    rw [hfq.tty] at htty ⊢
    rw [hfr.tty] at hr ⊢
    refine hs.terminal i' j' q r hq hr' hsession htty (hr.imp_right fun hl => ?_)
    exact (hfr.leader hl).2.leader.symm.trans hl

end Turn

/-- A process after `sys_setsid`: it is as before, or it is the new leader. -/
theorem Turn.setsid_cases (h : Turn s p .setsid s₁ s' b) (hq' : s'.task i = some q') :
    ∃ q, s.task i = some q ∧ (i ≠ s.current ∧ q.SameSession q' ∨ i = s.current ∧ q = p ∧
      q'.pid = p.pid ∧ q'.session = p.pid ∧ q'.pgrp = p.pid ∧ q'.leader = true ∧ q'.tty = -1) := by
  rcases h.origin hq' with ⟨pid, he, -⟩ | ⟨q, hq, -, hstir⟩
  · cases he
  refine ⟨q, hq, ?_⟩
  have hsame := hstir.sameSession
  by_cases hi : i = s.current
  · obtain rfl : q = p := Option.some.inj (hq.symm.trans (hi ▸ h.current))
    rw [effect, if_pos hi] at hsame
    exact .inr ⟨hi, rfl, hsame.pid, hsame.session, hsame.pgrp rfl, hsame.leader, hsame.tty⟩
  · exact .inl ⟨hi, (h.ends.sameSession hq (.inl hi)).trans hsame⟩

/-- No process with a terminal is in the session that `sys_setsid` begins. -/
theorem Sound.alone (hs : Sound s) (hp : s.task s.current = some p) (hleader : p.leader = false)
    (hq : s.task i = some q) (hsession : q.session = p.pid) : ¬0 ≤ q.tty := by
  intro htty
  rcases hs.founder i _ q p hq hp hsession.symm with hl | h0
  · cases hleader.symm.trans hl
  · exact htty.not_gt (hs.noTty i q hq h0)

/-- After `sys_setsid` the processes of a session still have one terminal. -/
theorem Turn.terminal_setsid {r' : Task} (h : Turn s p .setsid s₁ s' b) (hs : Sound s)
    (hleader : p.leader = false) (hq' : s'.task i = some q') (hr' : s'.task j = some r')
    (hsession : q'.session = r'.session) (htty : 0 ≤ q'.tty)
    (hr : 0 ≤ r'.tty ∨ r'.leader = true) : r'.tty = q'.tty := by
  obtain ⟨q, hq, ⟨-, hsame⟩ | ⟨-, rfl, -, -, -, -, hqtty⟩⟩ := h.setsid_cases hq'
  · obtain ⟨r, hr₀, ⟨-, hsame'⟩ | ⟨-, rfl, -, hrsession, -⟩⟩ := h.setsid_cases hr'
    · rw [hsame.session, hsame'.session] at hsession
      rw [hsame.tty] at htty ⊢
      rw [hsame'.tty, hsame'.leader] at hr
      rw [hsame'.tty]
      exact hs.terminal i j q r hq hr₀ hsession htty hr
    · rw [hsame.tty] at htty
      exact absurd htty
        (hs.alone h.current hleader hq (hsame.session.symm.trans (hsession.trans hrsession)))
  · rw [hqtty] at htty
    exact absurd htty (by decide)

/-- `sys_setsid` begins a session that no other process is in, as far as terminals matter. -/
theorem Turn.sound_setsid (h : Turn s p .setsid s₁ s' b) (ho : Orderly s) (hs : Sound s) :
    Sound s' := by
  obtain ⟨hc, hleader⟩ : s.current ≠ 0 ∧ p.leader = false := by
    have hends := h.ends
    cases hends with
    | setsid _ hslot hset => exact ⟨hslot, (sysSetsid_eq_some hset).1⟩
  have hlast : s.lastPid.toInt ≤ s'.lastPid.toInt := h.lastPid_le (c := 0) fun nr pid he => by
    rcases he with he | he <;> cases he
  refine ⟨fun i q' hq' => ?_, fun i q' hq' hl => ?_, fun i j q' r' hq' hr' hpid => ?_,
    fun q' hq' => ?_, fun i q' hq' hsession => ?_,
    fun i j q' r' hq' hr' hsession htty hr =>
      h.terminal_setsid hs hleader hq' hr' hsession htty hr⟩
  · obtain ⟨q, hq, ⟨-, hsame⟩ | ⟨-, rfl, hqpid, hqsession, -⟩⟩ := h.setsid_cases hq'
    · rw [hsame.pid, hsame.session]
      exact ⟨(hs.le i q hq).1.trans hlast, (hs.le i q hq).2.trans hlast⟩
    · rw [hqpid, hqsession]
      exact ⟨(hs.le i q hq).1.trans hlast, (hs.le i q hq).1.trans hlast⟩
  · obtain ⟨q, hq, ⟨-, hsame⟩ | ⟨-, rfl, hqpid, hqsession, hqpgrp, -⟩⟩ := h.setsid_cases hq'
    · have hlq : q.leader = true := hsame.leader.symm.trans hl
      rw [hsame.session, hsame.pid, hsame.pgrp hlq]
      exact hs.leader i q hq hlq
    · rw [hqpid, hqsession, hqpgrp]
      exact ⟨rfl, rfl⟩
  · obtain ⟨r, hr, ⟨hj, hsame⟩ | ⟨-, rfl, -, -, -, hlr, -⟩⟩ := h.setsid_cases hr'
    · obtain ⟨q, hq, ⟨-, hsame'⟩ | ⟨-, rfl, -, hqsession, -⟩⟩ := h.setsid_cases hq'
      · rw [hsame.leader, hsame'.session]
        exact hs.founder i j q r hq hr (by rw [← hsame.pid, hpid, hsame'.session])
      · exact absurd (ho.inj j _ r q hr h.current (by rw [← hsame.pid, hpid, hqsession])) hj
    · exact .inl hlr
  · obtain ⟨q, hq, ⟨-, hsame⟩ | ⟨hi, -⟩⟩ := h.setsid_cases hq'
    · exact hsame.leader.trans (hs.idle q hq)
    · exact absurd hi.symm hc
  · obtain ⟨q, hq, ⟨-, hsame⟩ | ⟨-, rfl, -, -, -, -, hqtty⟩⟩ := h.setsid_cases hq'
    · rw [hsame.tty]
      exact hs.noTty i q hq (hsame.session.symm.trans hsession)
    · rw [hqtty]
      decide

/-- A process after a terminal has been opened: it is as before, but for the terminal that a leader
without one gets. -/
theorem Turn.openTty_cases {minor : ℕ} (h : Turn s p (.openTty minor) s₁ s' b)
    (hq' : s'.task i = some q') : ∃ q, s.task i = some q ∧
      q.SameSession { q' with tty := q.tty } ∧ (q'.tty = q.tty ∨
        i = s.current ∧ q = p ∧ p.leader = true ∧ p.tty < 0 ∧ q'.tty = minor) := by
  rcases h.origin hq' with ⟨pid, he, -⟩ | ⟨q, hq, -, hstir⟩
  · cases he
  refine ⟨q, hq, ?_⟩
  have hsame := hstir.sameSession
  by_cases hc : i = s.current ∧ q.leader ∧ q.tty < 0
  · obtain rfl : q = p := Option.some.inj (hq.symm.trans (hc.1 ▸ h.current))
    rw [effect, if_pos hc] at hsame
    exact ⟨⟨hsame.pid, hsame.session, hsame.leader, rfl, hsame.pgrp⟩,
      .inr ⟨hc.1, rfl, hc.2.1, hc.2.2, hsame.tty⟩⟩
  · rw [effect, if_neg hc] at hsame
    exact ⟨⟨hsame.pid, hsame.session, hsame.leader, rfl, hsame.pgrp⟩, .inl hsame.tty⟩

/-- No process of session 0 gets a terminal. -/
theorem Turn.noTty_openTty {minor : ℕ} (h : Turn s p (.openTty minor) s₁ s' b) (ho : Orderly s)
    (hs : Sound s) (hq' : s'.task i = some q') (hsession : q'.session = 0) : q'.tty < 0 := by
  obtain ⟨q, hq, hsame, htty | ⟨hi, rfl, hlq, -, -⟩⟩ := h.openTty_cases hq'
  · rw [htty]
    exact hs.noTty i q hq (hsame.session.symm.trans hsession)
  · -- Process 0 is not a leader.
    have hpid : q.pid = 0 :=
      (hs.leader i q hq hlq).1.symm.trans (hsame.session.symm.trans hsession)
    obtain ⟨r, hr, hrpid, -⟩ := ho.zero
    obtain rfl := ho.inj i 0 q r hq hr (hpid.trans hrpid.symm)
    cases (hs.idle q hq).symm.trans hlq

/-- After a terminal has been opened the processes of a session still have one terminal. -/
theorem Turn.terminal_openTty {minor : ℕ} {r' : Task} (h : Turn s p (.openTty minor) s₁ s' b)
    (ho : Orderly s) (hs : Sound s) (hq' : s'.task i = some q') (hr' : s'.task j = some r')
    (hsession : q'.session = r'.session) (htty : 0 ≤ q'.tty)
    (hr : 0 ≤ r'.tty ∨ r'.leader = true) : r'.tty = q'.tty := by
  obtain ⟨q, hq, hsame, hqtty⟩ := h.openTty_cases hq'
  obtain ⟨r, hr₀, hsame', hrtty⟩ := h.openTty_cases hr'
  have hqr : q.session = r.session :=
    hsame.session.symm.trans (hsession.trans hsame'.session)
  have hlr : r'.leader = r.leader := hsame'.leader
  rw [hlr] at hr
  rcases hqtty with hqtty | ⟨-, rfl, hlq, hno, hqtty⟩ <;>
    rcases hrtty with hrtty | ⟨-, rfl, hlr, hno', hrtty⟩
  · rw [hqtty] at htty ⊢
    rw [hrtty] at hr ⊢
    exact hs.terminal i j q r hq hr₀ hqr htty hr
  · rw [hqtty] at htty
    have hsome := hs.terminal i j q r hq hr₀ hqr htty (.inr hlr)
    omega
  · rw [hrtty] at hr
    rcases hr with hr | hr
    · have hsome := hs.terminal j i r q hr₀ hq hqr.symm hr (.inr hlq)
      omega
    · obtain rfl := hs.leader_unique ho hq hr₀ hqr hlq hr
      rw [Option.some.inj (hq'.symm.trans hr')]
  · rw [hqtty, hrtty]

/-- A leader gets a terminal when no process of its session has one. -/
theorem Turn.sound_openTty {minor : ℕ} (h : Turn s p (.openTty minor) s₁ s' b) (ho : Orderly s)
    (hs : Sound s) : Sound s' := by
  have hlast : s.lastPid.toInt ≤ s'.lastPid.toInt := h.lastPid_le (c := 0) fun nr pid he => by
    rcases he with he | he <;> cases he
  refine ⟨fun i q' hq' => ?_, fun i q' hq' hl => ?_, fun i j q' r' hq' hr' hpid => ?_,
    fun q' hq' => ?_, fun i q' hq' hsession => h.noTty_openTty ho hs hq' hsession,
    fun i j q' r' hq' hr' hsession htty hr =>
      h.terminal_openTty ho hs hq' hr' hsession htty hr⟩
  · obtain ⟨q, hq, ⟨hpid, hsession, -⟩, -⟩ := h.openTty_cases hq'
    rw [hpid, hsession]
    exact ⟨(hs.le i q hq).1.trans hlast, (hs.le i q hq).2.trans hlast⟩
  · obtain ⟨q, hq, ⟨hpid, hsession, hleader, -, hpgrp⟩, -⟩ := h.openTty_cases hq'
    have hlq : q.leader = true := hleader.symm.trans hl
    rw [hsession, hpid, hpgrp hlq]
    exact hs.leader i q hq hlq
  · obtain ⟨q, hq, hsame, -⟩ := h.openTty_cases hq'
    obtain ⟨r, hr, hsame', -⟩ := h.openTty_cases hr'
    rw [hsame'.leader, hsame.session]
    exact hs.founder i j q r hq hr
      (hsame'.pid.symm.trans (hpid.trans hsame.session))
  · obtain ⟨q, hq, hsame, -⟩ := h.openTty_cases hq'
    exact hsame.leader.trans (hs.idle q hq)

theorem Sound.boot : Sound boot := by
  refine ⟨fun i q hq => ?_, fun i q hq hl => ?_, fun i j q r hq _ _ => .inr ?_, fun q hq => ?_,
    fun i q hq _ => ?_, fun i j q r hq _ _ htty _ => ?_⟩
  · rw [(boot_eq_some hq).2]
    exact ⟨le_rfl, le_rfl⟩
  · rw [(boot_eq_some hq).2] at hl
    cases hl
  · rw [(boot_eq_some hq).2]
    rfl
  · rw [(boot_eq_some hq).2]
    rfl
  · rw [(boot_eq_some hq).2]
    decide
  · rw [(boot_eq_some hq).2] at htty
    exact absurd htty (by decide)

/-- Task 0 pauses, so that process 1 runs. -/
def dispatched : System :=
  ((forked.updateCurrent fun p => { p with state := .interruptible }).schedule 2).getD forked

/-- The current process. -/
def System.running (s : System) : Task := (s.task s.current).getD initTask

/-- Process 1 begins a session. -/
def leading : System := (dispatched.sysSetsid dispatched.running).getD dispatched

/-- Process 1 opens a terminal. -/
def opened : System := leading.openTty leading.running 0

end Linux001.Processes
