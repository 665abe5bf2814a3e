import Eslang.Tcp.Incoming
import Mathlib

/-! # No event of a socket is lost

Read completions, write completions and errors all use the one promise `p_`. It is cleared whenever
the process is resumed from a wait on it, also by a message, and `write` replaces it. `Stage` says for
every place in the code what is known of `p_` and of the flags: when the process suspends on `p_`
again, every flag was polled after `p_` was cleared, or `p_` is set and its continuation posted. -/
namespace Eslang.Tcp
set_option autoImplicit false
open Lib

namespace Socket

/-- The process is suspended in a wait that `p_` wakes. -/
def onMember (s : Socket) : Bool := s.lastWaiting.bind Waiting.wakeOnFuture = some memberPromise

/-- A write completed since the flags were polled, or nothing did. -/
def Signalled (s : Socket) : Prop :=
  (s.p_.set_ = false → s.except_ = none) ∧ (s.p_.set_ = true → s.isWriting = false)

/-- What holds while the process is suspended on `p_`. -/
def Armed (s : Socket) : Prop :=
  (s.p_.set_ = false → s.p_.exec_ = some s.resumes ∧ s.nextRead = none ∧ s.eof_ = false ∧
    s.except_ = none ∧ (s.point = .onFuture → s.isWriting = true)) ∧
  (s.p_.set_ = true → s.resumes ∈ s.posted)

def hasPayload (s : Socket) : Prop := s.send_data.pop.isSome ∨ s.send_many_data.pop.isSome

/-- What is known of `p_` and of the flags at each place in the code. -/
inductive Stage (s : Socket) : Prop
  | early (hp : s.point.early = true) (he : s.except_ = none) (hs : s.p_.set_ = false)
      (hw : s.isWriting = false) (hm : s.running = false → s.onMember = false)
  | loop (hp : s.point = .loop) (hr : s.running = true) (he : s.except_ = none)
      (hs : s.p_.set_ = false)
  | sending (hp : s.point.sending.isSome) (hg : s.Signalled)
      (hm : s.running = false → s.onMember = false)
  | branch (hp : s.point = .branch) (hr : s.running = true) (he : s.eof_ = false)
      (hn : s.nextRead = none) (hg : s.Signalled)
  | resumedFuture (hp : s.point = .onFuture) (hr : s.running = true) (hs : s.p_.set_ = false)
  | waitingFuture (hp : s.point = .onFuture) (hr : s.running = false) (hm : s.onMember = true)
      (ha : s.Armed)
  /-- Behind a `tryRecv` that was ready at once `p_` may be set. -/
  | resumedRecv (hp : s.point = .tryRecv) (hr : s.running = true) (hw : s.isWriting = false)
      (hs : s.p_.set_ = false ∨ s.hasPayload)
  | waitingRecv (hp : s.point = .tryRecv) (hr : s.running = false) (hm : s.onMember = true)
      (hw : s.isWriting = false) (ha : s.Armed)

/-- A dead process does not run; a live one has an outstanding write exactly if it is writing. -/
structure Watched (s : Socket) : Prop where
  stopped : s.dead = true → s.running = false
  writes_le : s.writes.length ≤ 1
  writing : s.dead = false → s.writes.length = if s.isWriting then 1 else 0
  exception : s.p_.exception_ = none
  stage : s.dead = false → s.Stage

/-! ## Calls on promises -/

/-- The state of the `RunningProcess` other than what is posted. -/
def control (s : Socket) : Bool × Bool × Nat × Option Waiting :=
  (s.running, s.dead, s.resumes, s.lastWaiting)

@[simp] theorem control_setPromise (s : Socket) (f : PromiseRef) (p : EslangPromise Nat) :
    (s.setPromise f p).control = s.control := by
  unfold setPromise
  split <;> rfl

@[simp] theorem control_onPromise (s : Socket) (f : PromiseRef)
    (act : EslangPromise Nat → EslangPromise Nat × List Nat) :
    (s.onPromise f act).control = s.control :=
  control_setPromise s f _

theorem p_setPromise {s : Socket} {f : PromiseRef} {p : EslangPromise Nat} (hf : f ≠ memberPromise) :
    (s.setPromise f p).p_ = s.p_ := by
  unfold setPromise
  split
  · exact absurd rfl hf
  · rfl
  · rfl

theorem p_onPromise {s : Socket} {f : PromiseRef} {act : EslangPromise Nat → EslangPromise Nat × List Nat}
    (hf : f ≠ memberPromise) : (s.onPromise f act).p_ = s.p_ :=
  p_setPromise hf

theorem posted_onPromise (s : Socket) (f : PromiseRef)
    (act : EslangPromise Nat → EslangPromise Nat × List Nat) :
    (s.onPromise f act).posted = s.posted ++ (act (s.promise f)).2 := by
  unfold onPromise post setPromise
  split <;> rfl

/-- The members that `Watched` reads, the payload queues apart. -/
structure Members.Same (m m' : Members) : Prop where
  point : m'.point = m.point
  nextRead : m'.nextRead = m.nextRead
  eof_ : m'.eof_ = m.eof_
  except_ : m'.except_ = m.except_
  isWriting : m'.isWriting = m.isWriting
  writes : m'.writes = m.writes

theorem Members.Same.of_eq {m m' : Members} (h : m' = m) : m.Same m' := by
  subst h
  exact ⟨rfl, rfl, rfl, rfl, rfl, rfl⟩

/-- While the process is suspended, neither payloads nor further posted continuations matter. -/
theorem Watched.frame {s s' : Socket} (h : s.Watched) (hr : s.running = false)
    (hm : s.members.Same s'.members) (hc : s'.control = s.control) (hp : s'.p_ = s.p_)
    (hposted : ∀ n ∈ s.posted, n ∈ s'.posted) : s'.Watched := by
  obtain ⟨hpoint, hnext, heof, hexc, hwriting, hwrites⟩ := hm
  simp only [members] at hpoint hnext heof hexc hwriting hwrites
  simp only [control, Prod.mk.injEq] at hc
  obtain ⟨hrun, hdead, hres, hlast⟩ := hc
  have honm : s'.onMember = s.onMember := by rw [onMember, onMember, hlast]
  have hsig : s.Signalled → s'.Signalled := by
    rw [Signalled, Signalled, hp, hexc, hwriting]
    exact id
  have harm : s.Armed → s'.Armed := by
    rintro ⟨hunset, hset⟩
    rw [Armed, hp, hres, hnext, heof, hexc, hpoint, hwriting]
    exact ⟨hunset, fun hs => hposted _ (hset hs)⟩
  refine ⟨by rw [hdead, hrun]; exact h.stopped, hwrites ▸ h.writes_le, ?_, hp ▸ h.exception, fun hd => ?_⟩
  · rw [hdead, hwrites, hwriting]
    exact h.writing
  · cases h.stage (hdead ▸ hd) with
    | early hpt he hs hw hm =>
      exact .early (hpoint ▸ hpt) (hexc ▸ he) (hp ▸ hs) (hwriting ▸ hw) fun _ => honm ▸ hm hr
    | loop hpt hr' he hs => rw [hr] at hr'; cases hr'
    | sending hpt hg hm => exact .sending (hpoint ▸ hpt) (hsig hg) fun _ => honm ▸ hm hr
    | branch hpt hr' he hn hg => rw [hr] at hr'; cases hr'
    | resumedFuture hpt hr' hs => rw [hr] at hr'; cases hr'
    | waitingFuture hpt _ hm ha => exact .waitingFuture (hpoint ▸ hpt) (hrun.trans hr) (honm ▸ hm) (harm ha)
    | resumedRecv hpt hr' hw hs => rw [hr] at hr'; cases hr'
    | waitingRecv hpt _ hm hw ha =>
      exact .waitingRecv (hpoint ▸ hpt) (hrun.trans hr) (honm ▸ hm) (hwriting ▸ hw) (harm ha)

/-- A dead process only completes operations. -/
theorem Watched.dead {s s' : Socket} (h : s.Watched) (hd : s'.dead = true) (hr : s'.running = false)
    (hw : s'.writes.length ≤ s.writes.length) (hp : s'.p_.exception_ = none) : s'.Watched where
  stopped := fun _ => hr
  writes_le := hw.trans h.writes_le
  writing := by simp [hd]
  exception := hp
  stage := by simp [hd]

/-! ## Resumption -/

theorem resume_cases {s : Socket} (hd : s.dead = false) (hx : s.p_.exception_ = none) :
    s.resume = { s with dead := true } ∨
      (s.resume.running = true ∧ s.resume.dead = false ∧ s.resume.p_.exception_ = none ∧
        (s.onMember = true → s.resume.p_.set_ = false) ∧ (s.onMember = false → s.resume.p_ = s.p_)) := by
  unfold resume
  rw [if_neg (by simp [hd])]
  split
  next hw => exact .inr ⟨rfl, hd, hx, by simp [onMember, hw], fun _ => rfl⟩
  next f hw =>
    split
    next => exact .inl rfl
    next p' hp' =>
      refine .inr ⟨rfl, ?_, ?_⟩
      · have hc := congrArg (·.2.1) (control_setPromise s f p')
        exact hc.trans hd
      · by_cases hf : f = memberPromise
        · subst hf
          have hq : p'.exception_ = none ∧ p'.set_ = false := by
            have hproc : s.p_.process = .ok p' := hp'
            rw [EslangPromise.process, hx] at hproc
            cases hproc
            exact ⟨rfl, rfl⟩
          have hon : s.onMember = true := by simp [onMember, hw]
          exact ⟨hq.1, fun _ => hq.2, by simp [hon]⟩
        · have hon : s.onMember = false := by simp [onMember, hw, hf]
          have hkeep : (s.setPromise f p').p_ = s.p_ := p_setPromise hf
          refine ⟨?_, by simp [hon], fun _ => hkeep⟩
          show (s.setPromise f p').p_.exception_ = none
          rw [hkeep]
          exact hx

/-- Resumption of `t`, which differs from `s` in what is posted and queued only. -/
theorem Watched.resume {s t : Socket} (h : s.Watched) (hr : s.running = false)
    (hm : t.members = s.members) (hc : t.control = s.control) (hp : t.p_ = s.p_) :
    t.resume.Watched := by
  have hmr := (members_resume t).trans hm
  simp only [control, Prod.mk.injEq] at hc
  obtain ⟨hrun, hdead, -, hlast⟩ := hc
  have hon : t.onMember = s.onMember := by rw [onMember, onMember, hlast]
  have hx : t.p_.exception_ = none := hp ▸ h.exception
  have hwr : t.writes.length ≤ s.writes.length := (congrArg (·.writes.length) hm).le
  cases hd : s.dead with
  | true =>
    have hsame : t.resume = t := by simp [Socket.resume, hdead, hd]
    rw [hsame]
    exact h.dead (hdead.trans hd) (hrun.trans hr) hwr hx
  | false =>
    rcases resume_cases (hdead.trans hd) hx with hk | ⟨hrun', hdead', hx', hmember, hother⟩
    · rw [hk]
      exact h.dead rfl (hrun.trans hr) hwr hx
    · rw [hon, hp] at *
      generalize t.resume = u at hmr hrun' hdead' hx' hmember hother ⊢
      have hpoint : u.point = s.point := congrArg Members.point hmr
      have hexc : u.except_ = s.except_ := congrArg Members.except_ hmr
      have hwriting : u.isWriting = s.isWriting := congrArg Members.isWriting hmr
      have hwrites : u.writes = s.writes := congrArg Members.writes hmr
      refine ⟨by simp [hdead'], hwrites ▸ h.writes_le, fun _ => ?_, hx', fun _ => ?_⟩
      · rw [hwrites, hwriting]
        exact h.writing hd
      · cases h.stage hd with
        | early hpt he hs hw hm =>
          have hp' : u.p_ = s.p_ := hother (hm hr)
          exact .early (hpoint ▸ hpt) (hexc ▸ he) (hp' ▸ hs) (hwriting ▸ hw) (by simp [hrun'])
        | loop hpt hr' he hs => rw [hr] at hr'; cases hr'
        | sending hpt hg hm =>
          have hp' : u.p_ = s.p_ := hother (hm hr)
          refine .sending (hpoint ▸ hpt) ?_ (by simp [hrun'])
          rw [Signalled, hp', hexc, hwriting]
          exact hg
        | branch hpt hr' he hn hg => rw [hr] at hr'; cases hr'
        | resumedFuture hpt hr' hs => rw [hr] at hr'; cases hr'
        | waitingFuture hpt _ hm ha => exact .resumedFuture (hpoint ▸ hpt) hrun' (hmember hm)
        | resumedRecv hpt hr' hw hs => rw [hr] at hr'; cases hr'
        | waitingRecv hpt _ hm hw ha =>
          exact .resumedRecv (hpoint ▸ hpt) hrun' (hwriting ▸ hw) (.inl (hmember hm))

theorem Watched.resumeAt {s : Socket} (h : s.Watched) (hr : s.running = false) (n : Nat) :
    (s.resumeAt n).Watched := by
  unfold Socket.resumeAt
  split
  · exact h.resume hr rfl rfl rfl
  · exact h

/-- A posted continuation with an older count is dropped, one with the current count resumes. -/
theorem Watched.continuation {s : Socket} {n : Nat} {ns : List Nat} (h : s.Watched)
    (hr : s.running = false) (hp : s.posted = n :: ns) :
    (({ s with posted := ns } : Socket).resumeAt n).Watched := by
  unfold Socket.resumeAt
  split
  next => exact h.resume hr rfl rfl rfl
  next hne =>
    have hne : s.resumes ≠ n := hne
    have hset (ha : s.Armed) : ({ s with posted := ns } : Socket).Armed := by
      refine ⟨ha.1, fun hs => ?_⟩
      have hmem := ha.2 hs
      rw [hp] at hmem
      exact (List.mem_cons.mp hmem).resolve_left hne
    refine ⟨h.stopped, h.writes_le, h.writing, h.exception, fun hd => ?_⟩
    cases h.stage hd with
    | early hpt he hs hw hm => exact .early hpt he hs hw hm
    | loop hpt hr' he hs => exact .loop hpt hr' he hs
    | sending hpt hg hm => exact .sending hpt hg hm
    | branch hpt hr' he hn hg => exact .branch hpt hr' he hn hg
    | resumedFuture hpt hr' hs => exact .resumedFuture hpt hr' hs
    | waitingFuture hpt hr' hm ha => exact .waitingFuture hpt hr' hm (hset ha)
    | resumedRecv hpt hr' hw hs => exact .resumedRecv hpt hr' hw hs
    | waitingRecv hpt hr' hm hw ha => exact .waitingRecv hpt hr' hm hw (hset ha)

/-! ## Completions -/

theorem setIfUnset_fields {κ : Type} (p : EslangPromise κ) :
    p.setIfUnset.1.set_ = true ∧ p.setIfUnset.1.exception_ = p.exception_ ∧
      (p.set_ = false → p.setIfUnset.2 = p.exec_.toList) := by
  unfold EslangPromise.setIfUnset
  cases hs : p.set_ with
  | true => simp [hs]
  | false => simp [EslangPromise.set]

/-- Events are signalled: `t` is `s` after an event that only a suspended process can see, with `p_`
set. -/
theorem Watched.signalled {s t : Socket} (h : s.Watched) (hd : s.dead = false) (hr : s.running = false)
    (hpoint : t.point = s.point) (hearly : s.point.early = false)
    (hc : t.control = s.control) (hp : t.p_ = s.p_.setIfUnset.1)
    (hposted : t.posted = s.posted ++ s.p_.setIfUnset.2)
    (hwriting : t.isWriting = s.isWriting ∨ t.isWriting = false)
    (hsend : s.point.sending.isSome → t.isWriting = false)
    (hwrites : t.writes.length = if t.isWriting then 1 else 0) : t.Watched := by
  obtain ⟨hset, hexc, hpost⟩ := setIfUnset_fields s.p_
  simp only [control, Prod.mk.injEq] at hc
  obtain ⟨hrun, hdead, hres, hlast⟩ := hc
  have hon : t.onMember = s.onMember := by rw [onMember, onMember, hlast]
  have harm (ha : s.Armed) : t.Armed := by
    refine ⟨fun hs => ?_, fun _ => ?_⟩
    · rw [hp, hset] at hs
      cases hs
    · rw [hres, hposted]
      cases hs : s.p_.set_ with
      | true => exact List.mem_append_left _ (ha.2 hs)
      | false =>
        rw [hpost hs, (ha.1 hs).1]
        exact List.mem_append_right _ (by simp)
  have hle : t.writes.length ≤ 1 := by
    rw [hwrites]
    split <;> omega
  refine ⟨by simp [hdead, hd], hle, fun _ => hwrites, by rw [hp, hexc, h.exception], fun _ => ?_⟩
  cases h.stage hd with
  | early hpt he hs hw hm => rw [hearly] at hpt; cases hpt
  | loop hpt hr' he hs => rw [hr] at hr'; cases hr'
  | sending hpt hg hm =>
    refine .sending (hpoint ▸ hpt) ⟨fun hs => ?_, fun _ => hsend hpt⟩ fun _ => hon ▸ hm hr
    rw [hp, hset] at hs
    cases hs
  | branch hpt hr' he hn hg => rw [hr] at hr'; cases hr'
  | resumedFuture hpt hr' hs => rw [hr] at hr'; cases hr'
  | waitingFuture hpt _ hm ha => exact .waitingFuture (hpoint ▸ hpt) (hrun.trans hr) (hon ▸ hm) (harm ha)
  | resumedRecv hpt hr' hw hs => rw [hr] at hr'; cases hr'
  | waitingRecv hpt _ hm hw ha =>
    refine .waitingRecv (hpoint ▸ hpt) (hrun.trans hr) (hon ▸ hm) ?_ (harm ha)
    rcases hwriting with he | he
    · exact he.trans hw
    · exact he

theorem Watched.signalledDead {s t : Socket} (h : s.Watched) (hd : s.dead = true)
    (hc : t.control = s.control) (hp : t.p_ = s.p_.setIfUnset.1)
    (hwrites : t.writes.length ≤ s.writes.length) : t.Watched := by
  simp only [control, Prod.mk.injEq] at hc
  obtain ⟨hrun, hdead, -, -⟩ := hc
  apply h.dead (hdead.trans hd) (hrun.trans (h.stopped hd)) hwrites
  rw [hp, (setIfUnset_fields s.p_).2.1, h.exception]

theorem Watched.readSignalled {s t : Socket} {tr : List Event} (h : s.Watched) (hf : Flow tr s.intake)
    (hr : s.running = false) (hn : 0 < s.reads) (hpoint : t.point = s.point)
    (hc : t.control = s.control) (hp : t.p_ = s.p_.setIfUnset.1)
    (hposted : t.posted = s.posted ++ s.p_.setIfUnset.2) (hwriting : t.isWriting = s.isWriting)
    (hwrites : t.writes = s.writes) : t.Watched := by
  cases hd : s.dead with
  | true => exact h.signalledDead hd hc hp (hwrites ▸ le_rfl)
  | false =>
    have hearly : s.point.early = false := by
      by_contra he
      have he : s.point.early = true := by simpa using he
      have hzero : s.reads = 0 := (hf.early he).1
      omega
    have hsend : s.point.sending = none := (hf.armed hn).2.1
    apply h.signalled hd hr hpoint hearly hc hp hposted (.inl hwriting) (by simp [hsend])
    rw [hwrites, hwriting]
    exact h.writing hd

theorem Watched.onRead {s : Socket} {tr : List Event} (h : s.Watched) (hf : Flow tr s.intake)
    (hr : s.running = false) (hn : 0 < s.reads) (error : Option ErrorCode) (bytes : Buffer) :
    (({ s with reads := s.reads - 1 } : Socket).onRead error bytes).1.Watched := by
  have hframe (n : Nat) : ({ s with reads := n } : Socket).Watched :=
    h.frame hr ⟨rfl, rfl, rfl, rfl, rfl, rfl⟩ rfl rfl fun _ hm => hm
  unfold Socket.onRead
  split
  next => exact hframe _
  next => exact h.readSignalled hf hr hn rfl rfl rfl rfl rfl rfl
  next => exact h.readSignalled hf hr hn rfl rfl rfl rfl rfl rfl
  next =>
    split
    next =>
      dsimp only
      split
      next => exact h.readSignalled hf hr hn rfl rfl rfl rfl rfl rfl
      next => exact hframe _
    next => exact hframe _

theorem Watched.writeSignalled {s t : Socket} {b : Buffer} {bs : List Buffer} (h : s.Watched)
    (hr : s.running = false) (hw : s.writes = b :: bs) (hpoint : t.point = s.point)
    (hc : t.control = s.control) (hp : t.p_ = s.p_.setIfUnset.1)
    (hposted : t.posted = s.posted ++ s.p_.setIfUnset.2) (hwriting : t.isWriting = false)
    (hwrites : t.writes = bs) : t.Watched := by
  have hle := h.writes_le
  rw [hw, List.length_cons] at hle
  have hbs : bs.length = 0 := by omega
  cases hd : s.dead with
  | true => exact h.signalledDead hd hc hp (by rw [hwrites, hw]; simp)
  | false =>
    have hone := h.writing hd
    have hwr : s.isWriting = true := by
      by_contra hne
      rw [if_neg hne, hw] at hone
      cases hone
    have hearly : s.point.early = false := by
      cases h.stage hd with
      | early hpt he hs hw' hm => rw [hwr] at hw'; cases hw'
      | loop hpt _ _ _ => rw [hpt]; rfl
      | sending hpt _ _ => cases hpt' : s.point <;> simp [hpt', Point.sending, Point.early] at hpt ⊢
      | branch hpt _ _ _ _ => rw [hpt]; rfl
      | resumedFuture hpt _ _ => rw [hpt]; rfl
      | waitingFuture hpt _ _ _ => rw [hpt]; rfl
      | resumedRecv hpt _ _ _ => rw [hpt]; rfl
      | waitingRecv hpt _ _ _ _ => rw [hpt]; rfl
    refine h.signalled hd hr hpoint hearly hc hp hposted (.inr hwriting) (fun _ => hwriting) ?_
    rw [hwrites, hwriting, hbs]
    rfl

theorem Watched.onWrite {s : Socket} {b : Buffer} {bs : List Buffer} (h : s.Watched)
    (hr : s.running = false) (hw : s.writes = b :: bs) {error : Option ErrorCode}
    (hc : s.mayComplete error = true) :
    (({ s with writes := bs } : Socket).onWrite error).Watched := by
  unfold Socket.onWrite
  split
  next =>
    have hd : s.dead = true := by simpa [mayComplete] using hc
    exact h.dead hd (h.stopped hd) (by simp [hw]) h.exception
  next => exact h.writeSignalled hr hw rfl rfl rfl rfl rfl rfl
  next => exact h.writeSignalled hr hw rfl rfl rfl rfl rfl rfl

/-! ## The running coroutine -/

theorem suspend_fields (s : Socket) (w : Waiting) (pt : Point) :
    (s.suspend w pt).running = false ∧ (s.suspend w pt).dead = s.dead ∧
      (s.suspend w pt).lastWaiting = some w ∧ (s.suspend w pt).resumes = s.resumes := by
  unfold suspend
  dsimp only
  split
  · exact ⟨rfl, rfl, rfl, rfl⟩
  · split
    · exact ⟨rfl, rfl, rfl, rfl⟩
    next f _ =>
      have hc := control_onPromise
        ({ s with point := pt, running := false, lastWaiting := some w } : Socket) f
        (·.setContinuation s.resumes)
      simp only [control, Prod.mk.injEq] at hc
      exact hc.imp_right fun h => ⟨h.1, h.2.2, h.2.1⟩

theorem suspend_p {s : Socket} {w : Waiting} (pt : Point) (hw : w.wakeOnFuture ≠ some memberPromise) :
    (s.suspend w pt).p_ = s.p_ := by
  unfold suspend
  dsimp only
  split
  · rfl
  · split
    · rfl
    next f hf => exact p_onPromise fun h => hw (h ▸ hf)

theorem Watched.goOn {s u : Socket} (h : s.Watched) (hd : s.dead = false) (hd' : u.dead = false)
    (hw : u.writes = s.writes) (hwr : u.isWriting = s.isWriting) (hx : u.p_.exception_ = none)
    (hs : u.Stage) : u.Watched where
  stopped := by simp [hd']
  writes_le := hw ▸ h.writes_le
  writing := by
    rw [hw, hwr]
    exact fun _ => h.writing hd
  exception := hx
  stage := fun _ => hs

theorem Watched.suspendAway {s : Socket} {w : Waiting} {pt : Point} (h : s.Watched)
    (hd : s.dead = false) (hw : w.wakeOnFuture ≠ some memberPromise)
    (hs : ∀ u : Socket, u.members = { s.members with point := pt } → u.p_ = s.p_ →
      (u.running = false → u.onMember = false) → u.Stage) : (s.suspend w pt).Watched := by
  obtain ⟨-, hdead, hlast, -⟩ := suspend_fields s w pt
  have hm := members_suspend s w pt
  have hp := suspend_p (s := s) pt hw
  refine h.goOn hd (hdead.trans hd) (congrArg Members.writes hm) (congrArg Members.isWriting hm)
    (hp ▸ h.exception) (hs _ hm hp fun _ => ?_)
  simp [onMember, hlast, hw]

theorem setContinuation_fields {κ : Type} (p : EslangPromise κ) (f : κ) :
    (p.setContinuation f).1.set_ = p.set_ ∧ (p.setContinuation f).1.exception_ = p.exception_ ∧
      (p.set_ = false → (p.setContinuation f).1.exec_ = some f) ∧
      (p.set_ = true → f ∈ (p.setContinuation f).2) := by
  unfold EslangPromise.setContinuation
  cases hs : p.set_ with
  | true => simp [EslangPromise.set]
  | false => simp

theorem suspend_armed {s : Socket} {w : Waiting} (pt : Point) (hi : w.isReadyForResume = false)
    (hw : w.wakeOnFuture = some memberPromise) (he : s.eof_ = false) (hn : s.nextRead = none)
    (hg : s.p_.set_ = false → s.except_ = none) (hwr : pt = .onFuture → s.isWriting = true) :
    (s.suspend w pt).Armed ∧ (s.suspend w pt).onMember = true ∧
      (s.suspend w pt).p_.exception_ = s.p_.exception_ := by
  have hs : s.suspend w pt = ({ s with point := pt, running := false, lastWaiting := some w } : Socket).onPromise
      memberPromise (·.setContinuation s.resumes) := by
    rw [suspend]
    simp only [hi, hw]
    rfl
  rw [hs]
  obtain ⟨hset, hexc, hstored, hpost⟩ := setContinuation_fields s.p_ s.resumes
  have hp : (({ s with point := pt, running := false, lastWaiting := some w } : Socket).onPromise
      memberPromise (·.setContinuation s.resumes)).p_ = (s.p_.setContinuation s.resumes).1 := rfl
  refine ⟨⟨fun hunset => ?_, fun hup => ?_⟩, ?_, hp ▸ hexc⟩
  · rw [hp, hset] at hunset
    exact ⟨hp ▸ hstored hunset, hn, he, hg hunset, hwr⟩
  · rw [hp, hset] at hup
    exact List.mem_append_right s.posted (hpost hup)
  · show decide ((some w).bind Waiting.wakeOnFuture = some memberPromise) = true
    simp [hw]

theorem Watched.awaitEarly {s : Socket} {w : Waiting} {pt : Point} (h : s.Watched) (hd : s.dead = false)
    (hpt : pt.early = true) (he : s.except_ = none) (hs : s.p_.set_ = false)
    (hwr : s.isWriting = false) (hr : s.running = true) (hw : w.wakeOnFuture ≠ some memberPromise) :
    (s.await w pt).Watched := by
  unfold Socket.await
  split
  next => exact h.goOn hd hd rfl rfl h.exception (.early hpt he hs hwr (by simp [hr]))
  next =>
    refine h.suspendAway hd hw fun u hm hp hon => ?_
    have hpoint : u.point = pt := congrArg Members.point hm
    have hexc : u.except_ = s.except_ := congrArg Members.except_ hm
    have hwriting : u.isWriting = s.isWriting := congrArg Members.isWriting hm
    exact .early (hpoint ▸ hpt) (hexc.trans he) (hp ▸ hs) (hwriting.trans hwr) hon

theorem Watched.tickEarly {s : Socket} (h : s.Watched) (hr : s.running = true) (hd : s.dead = false)
    (hpt : s.point.early = true) (he : s.except_ = none) (hs : s.p_.set_ = false)
    (hw : s.isWriting = false) (busy : Bool) : (s.tick busy).1.Watched := by
  have hgo {pt : Point} (hpt : pt.early = true) : ({ s with point := pt } : Socket).Watched :=
    h.goOn hd hd rfl rfl h.exception (.early hpt he hs hw (by simp [hr]))
  unfold Socket.tick
  cases hp : s.point with
  | initial =>
    dsimp only
    split
    next => exact hgo rfl
    next =>
      have hh : ({ s with handshaking := true } : Socket).Watched :=
        h.goOn hd hd rfl rfl h.exception (.early hpt he hs hw (by simp [hr]))
      exact hh.awaitEarly hd rfl he hs hw hr (by decide)
  | handshake => exact hgo rfl
  | started => exact h.awaitEarly hd rfl he hs hw hr (by decide)
  | recvInit =>
    dsimp only
    split
    next => exact h.dead rfl rfl le_rfl h.exception
    next => exact h.goOn hd hd rfl rfl h.exception (.loop rfl hr he hs)
  | loop => rw [hp] at hpt; cases hpt
  | yielding rd => rw [hp] at hpt; cases hpt
  | throttled rd => rw [hp] at hpt; cases hpt
  | branch => rw [hp] at hpt; cases hpt
  | onFuture => rw [hp] at hpt; cases hpt
  | tryRecv => rw [hp] at hpt; cases hpt
  | returned => rw [hp] at hpt; cases hpt
  | threw e => rw [hp] at hpt; cases hpt

theorem Watched.tickLoop {s : Socket} (h : s.Watched) (hr : s.running = true) (hd : s.dead = false)
    (hpt : s.point = .loop) (he : s.except_ = none) (hs : s.p_.set_ = false) (busy : Bool) :
    (s.tick busy).1.Watched := by
  have hsig {u : Socket} (hp : u.p_ = s.p_) (hexc : u.except_ = s.except_) : u.Signalled :=
    ⟨fun _ => hexc.trans he, fun hset => by rw [hp, hs] at hset; cases hset⟩
  unfold Socket.tick
  rw [hpt]
  dsimp only
  split
  next => exact h.dead rfl rfl le_rfl h.exception
  next heof =>
    have heof : s.eof_ = false := by simpa using heof
    split
    next hn => exact h.goOn hd hd rfl rfl h.exception (.branch rfl hr heof hn (hsig rfl rfl))
    next rd hn =>
      have hmoved : ({ s with nextRead := some { rd with data := none } } : Socket).Watched :=
        h.goOn hd hd rfl rfl h.exception (.loop hpt hr he hs)
      split
      next =>
        refine hmoved.suspendAway (w := .yield) hd (by decide) fun u hm hp hon => ?_
        have hpoint : u.point = .yielding rd := congrArg Members.point hm
        exact .sending (by rw [hpoint]; rfl) (hsig hp (congrArg Members.except_ hm)) hon
      next => exact h.goOn hd hd rfl rfl h.exception (.sending rfl (hsig rfl rfl) (by simp [hr]))

theorem Watched.tickSending {s : Socket} {tr : List Event} (h : s.Watched) (hf : Flow tr s.intake)
    (hr : s.running = true) (hd : s.dead = false) (hpt : s.point.sending.isSome) (hg : s.Signalled)
    (busy : Bool) : (s.tick busy).1.Watched := by
  have heof : s.eof_ = false := by
    by_contra he
    have he : s.eof_ = true := by simpa using he
    have hsend : s.point.sending = none := (hf.eof he).2
    simp [hsend] at hpt
  have hwait (rd : ReceiveData) :
      (s.suspend (.future (.throttle ((s.toSend.map (·.slot)).getD 0))) (.throttled rd)).Watched := by
    refine h.suspendAway hd (by simp [Waiting.future, Waiting.wakeOnFuture, memberPromise])
      fun u hm hp hon => ?_
    have hpoint : u.point = .throttled rd := congrArg Members.point hm
    refine .sending (by rw [hpoint]; rfl) ?_ hon
    have hexc : u.except_ = s.except_ := congrArg Members.except_ hm
    have hwriting : u.isWriting = s.isWriting := congrArg Members.isWriting hm
    rw [Signalled, hp, hexc, hwriting]
    exact hg
  have hsent : ({ s with nextRead := none, point := .branch } : Socket).asyncRead.Watched :=
    h.goOn hd hd rfl rfl h.exception (.branch rfl hr heof rfl hg)
  unfold Socket.tick
  cases hp : s.point with
  | yielding rd =>
    dsimp only
    split
    · exact hwait rd
    · exact hsent
  | throttled rd =>
    dsimp only
    split
    · exact hwait rd
    · exact hsent
  | _ => simp [hp, Point.sending] at hpt

theorem pop_isSome {α κ : Type} {q : MessageQueue α κ} (h : q.empty = false) : q.pop.isSome := by
  cases hq : q.pop with
  | some r => rfl
  | none => simp [MessageQueue.empty, MessageQueue.size_eq, MessageQueue.pop_none hq] at h

theorem Watched.tickBranch {s : Socket} (h : s.Watched) (hr : s.running = true) (hd : s.dead = false)
    (hpt : s.point = .branch) (he : s.eof_ = false) (hn : s.nextRead = none) (hg : s.Signalled)
    (busy : Bool) : (s.tick busy).1.Watched := by
  unfold Socket.tick
  rw [hpt]
  dsimp only
  split
  next hw =>
    -- nothing was signalled, so the wait is not ready
    have hs : s.p_.set_ = false := by
      by_contra hne
      have hnot := hg.2 (by simpa using hne)
      rw [hw] at hnot
      cases hnot
    have hready : (Waiting.onFuture memberPromise).awaitReady (fun f => (s.promise f).isReady)
        s.isEmpty = false := hs
    rw [Socket.await, hready]
    obtain ⟨harm, hon, hx⟩ := suspend_armed (s := s) (w := .onFuture memberPromise) .onFuture rfl
      rfl he hn hg.1 fun _ => hw
    obtain ⟨hrun, hdead, -, -⟩ := suspend_fields s (.onFuture memberPromise) .onFuture
    have hm := members_suspend s (.onFuture memberPromise) .onFuture
    exact h.goOn hd (hdead.trans hd) (congrArg Members.writes hm) (congrArg Members.isWriting hm)
      (hx.trans h.exception) (.waitingFuture (congrArg Members.point hm) hrun hon harm)
  next hw =>
    have hw : s.isWriting = false := by simpa using hw
    unfold Socket.await
    split
    next hready =>
      refine h.goOn hd hd rfl rfl h.exception (.resumedRecv rfl hr hw (.inr ?_))
      have hany : ([sendDataSlot, sendManyDataSlot].any fun t => !s.isEmpty t) = true := hready
      simp only [List.any_cons, List.any_nil, Bool.or_false, Bool.or_eq_true, Bool.not_eq_true'] at hany
      exact hany.imp pop_isSome pop_isSome
    next =>
      obtain ⟨harm, hon, hx⟩ := suspend_armed (s := s)
        (w := .withFuture memberPromise (.messages [sendDataSlot, sendManyDataSlot])) .tryRecv
        rfl rfl he hn hg.1 (by simp)
      obtain ⟨hrun, hdead, -, -⟩ := suspend_fields s
        (.withFuture memberPromise (.messages [sendDataSlot, sendManyDataSlot])) .tryRecv
      have hm := members_suspend s
        (.withFuture memberPromise (.messages [sendDataSlot, sendManyDataSlot])) .tryRecv
      have hwriting := congrArg Members.isWriting hm
      exact h.goOn hd (hdead.trans hd) (congrArg Members.writes hm) hwriting (hx.trans h.exception)
        (.waitingRecv (congrArg Members.point hm) hrun hon (hwriting.trans hw) harm)

theorem Watched.tickFuture {s : Socket} (h : s.Watched) (hr : s.running = true) (hd : s.dead = false)
    (hpt : s.point = .onFuture) (hs : s.p_.set_ = false) (busy : Bool) : (s.tick busy).1.Watched := by
  unfold Socket.tick
  rw [hpt]
  dsimp only
  split
  next => exact h.dead rfl rfl le_rfl h.exception
  next he => exact h.goOn hd hd rfl rfl h.exception (.loop rfl hr he hs)

theorem Watched.written {s u : Socket} (h : s.Watched) (hd : s.dead = false) (hw : s.isWriting = false)
    (hd' : u.dead = false) (hr : u.running = true) (hpt : u.point = .loop) (he : u.except_ = none)
    (hp : u.p_ = {}) (hwr : u.isWriting = true) {b : Buffer} (hws : u.writes = s.writes ++ [b]) :
    u.Watched := by
  have hzero : s.writes.length = 0 := by simpa [hw] using h.writing hd
  have hone : u.writes.length = 1 := by rw [hws, List.length_append, hzero]; rfl
  exact ⟨by simp [hd'], hone.le, fun _ => by rw [hone, hwr]; rfl, by rw [hp],
    fun _ => .loop hpt hr he (by rw [hp])⟩

theorem Watched.tickRecv {s : Socket} (h : s.Watched) (hr : s.running = true) (hd : s.dead = false)
    (hpt : s.point = .tryRecv) (hw : s.isWriting = false) (hs : s.p_.set_ = false ∨ s.hasPayload)
    (busy : Bool) : (s.tick busy).1.Watched := by
  unfold Socket.tick
  rw [hpt]
  unfold Socket.received
  dsimp only [getVals]
  split
  next => exact h.dead rfl rfl le_rfl h.exception
  next he =>
    split
    next => exact h.written hd hw hd hr rfl he rfl rfl rfl
    next => exact h.written hd hw hd hr rfl he rfl rfl rfl
    next hnone =>
      simp only [Prod.mk.injEq, Option.map_eq_none_iff] at hnone
      refine h.goOn hd hd rfl rfl h.exception (.loop rfl hr he (hs.resolve_right fun hpay => ?_))
      simp [hasPayload, hnone.1, hnone.2] at hpay

theorem Watched.tick {s : Socket} {tr : List Event} (h : s.Watched) (hf : Flow tr s.intake)
    (hr : s.running = true) (busy : Bool) : (s.tick busy).1.Watched := by
  have hd : s.dead = false := by
    by_contra hd
    have hstop := h.stopped (by simpa using hd)
    rw [hr] at hstop
    cases hstop
  cases h.stage hd with
  | early hpt he hs hw _ => exact h.tickEarly hr hd hpt he hs hw busy
  | loop hpt _ he hs => exact h.tickLoop hr hd hpt he hs busy
  | sending hpt hg _ => exact h.tickSending hf hr hd hpt hg busy
  | branch hpt _ he hn hg => exact h.tickBranch hr hd hpt he hn hg busy
  | resumedFuture hpt _ hs => exact h.tickFuture hr hd hpt hs busy
  | waitingFuture _ hr' _ _ => rw [hr] at hr'; cases hr'
  | resumedRecv hpt _ hw hs => exact h.tickRecv hr hd hpt hw hs busy
  | waitingRecv _ hr' _ _ _ => rw [hr] at hr'; cases hr'

/-- **One step.** -/
theorem Watched.effect {s s' : Socket} {tr out : List Event} {l : Label} (h : s.Watched)
    (hf : Flow tr s.intake) (heff : Effect s l s' out) : s'.Watched := by
  cases heff with
  | tick busy hr => exact h.tick hf hr busy
  | @item n ns hr hq hd =>
    have hq : ({ s with queued := ns } : Socket).Watched :=
      h.frame hr ⟨rfl, rfl, rfl, rfl, rfl, rfl⟩ rfl rfl fun _ hm => hm
    exact hq.resumeAt hr n
  | lateItem hr hq hd => exact h.frame hr ⟨rfl, rfl, rfl, rfl, rfl, rfl⟩ rfl rfl fun _ hm => hm
  | continuation hr hp => exact h.continuation hr hp
  | message m hr hd =>
    have hpush : (s.push m).Watched := by
      cases m <;> exact h.frame hr ⟨rfl, rfl, rfl, rfl, rfl, rfl⟩ rfl rfl fun _ hm => hm
    have hrun : (s.push m).running = false := by cases m <;> exact hr
    unfold send
    split
    · exact hpush.resume hrun rfl rfl rfl
    · exact hpush
  | lateMessage m hr hd => exact h
  | handshakeDone error hr hh hc =>
    have hbase : ({ s with handshaking := false } : Socket).Watched :=
      h.frame hr ⟨rfl, rfl, rfl, rfl, rfl, rfl⟩ rfl rfl fun _ hm => hm
    have hother (act : EslangPromise Nat → EslangPromise Nat × List Nat) :
        (({ s with handshaking := false } : Socket).onPromise handshakePromise act).Watched := by
      refine hbase.frame hr (.of_eq (members_onPromise _ _ _)) (control_onPromise _ _ _)
        (p_onPromise (by decide)) fun n hm => ?_
      rw [posted_onPromise]
      exact List.mem_append_left _ hm
    unfold onHandshake
    split
    · exact hbase
    · exact hother _
    · exact hother _
  | readDone error bytes hr hn hc hb => exact h.onRead hf hr hn error bytes
  | writeDone error hr hw hc => exact h.onWrite hr hw hc
  | targetReady hr =>
    refine h.frame hr (.of_eq (members_onPromise _ _ _)) (control_onPromise _ _ _)
      (p_onPromise (by decide)) fun n hm => ?_
    rw [posted_onPromise]
    exact List.mem_append_left _ hm
  | otherSender set hr => exact h.frame hr ⟨rfl, rfl, rfl, rfl, rfl, rfl⟩ rfl rfl fun _ hm => hm
  | kill hr => exact h.dead rfl hr le_rfl h.exception

theorem watched_spawned (traits : Traits) (options : SocketOptions) (pid : Pid) (onReady : SendAddress) :
    (Socket.spawned traits options pid onReady).Watched where
  stopped := fun _ => rfl
  writes_le := Nat.zero_le 1
  writing := fun _ => rfl
  exception := rfl
  stage := fun _ => .early rfl rfl rfl rfl fun _ => rfl

end Socket

/-! ## Every run -/

/-- **No event of a socket is lost.** In every run at most one write is outstanding, and when the live
process is suspended on `p_`: if `p_` is unset, no event waits to be noticed and, outside `tryRecv`, a
write is outstanding; if `p_` is set, a continuation with the current count is posted. -/
theorem socket_events_kept {traits : Traits} {options : SocketOptions} {pid : Pid}
    {onReady : SendAddress} {tr : List Event} {s : Socket}
    (h : system.Run System.anyStep (Socket.spawned traits options pid onReady) tr s) :
    s.writes.length ≤ 1 ∧
      (s.running = false → s.dead = false → s.point = .onFuture ∨ s.point = .tryRecv →
        (s.p_.isReady = false → s.nextRead = none ∧ s.eof_ = false ∧ s.except_ = none ∧
          (s.point = .onFuture → s.isWriting = true ∧ s.writes.length = 1)) ∧
        (s.p_.isReady = true → s.resumes ∈ s.posted)) := by
  have hw : s.Watched := by
    refine h.invariant (fun tr s => s.Watched ∧ Flow tr s.intake)
      ⟨Socket.watched_spawned traits options pid onReady, flow_spawned traits options pid onReady⟩ ?_ |>.1
    intro tr t l u out ht _ hstep
    have heff := Socket.step_effect hstep
    exact ⟨ht.1.effect ht.2 heff, (Socket.effect_intake heff).flow ht.2⟩
  refine ⟨hw.writes_le, fun hr hd hpt => ?_⟩
  have harm : s.Armed := by
    cases hw.stage hd with
    | early hp _ _ _ _ =>
      rcases hpt with hpt | hpt
      · rw [hpt] at hp; cases hp
      · rw [hpt] at hp; cases hp
    | sending hp _ _ =>
      rcases hpt with hpt | hpt
      · rw [hpt] at hp; cases hp
      · rw [hpt] at hp; cases hp
    | loop _ hr' _ _ => rw [hr] at hr'; cases hr'
    | branch _ hr' _ _ _ => rw [hr] at hr'; cases hr'
    | resumedFuture _ hr' _ => rw [hr] at hr'; cases hr'
    | resumedRecv _ hr' _ _ => rw [hr] at hr'; cases hr'
    | waitingFuture _ _ _ ha => exact ha
    | waitingRecv _ _ _ _ ha => exact ha
  refine ⟨fun hs => ?_, harm.2⟩
  obtain ⟨-, hn, he, hx, hwr⟩ := harm.1 hs
  refine ⟨hn, he, hx, fun hp => ⟨hwr hp, ?_⟩⟩
  have hlen := hw.writing hd
  rwa [hwr hp, if_pos rfl] at hlen

/-- A write is outstanding, a read has completed behind it, and its continuation is posted. -/
theorem socket_events_kept_read_behind_write :
    ∃ tr s, system.Run System.anyStep (Socket.spawned .plain {} ⟨0, 0⟩ ⟨⟨1, 0⟩, 0⟩) tr s ∧
      s.point = .onFuture ∧ s.nextRead.isSome = true ∧ s.p_.isReady = true ∧ s.resumes ∈ s.posted := by
  obtain ⟨tr, s, hr, hp, hn, hs, hrun, hd⟩ := System.exec_reaches (M := system) (g := fun _ _ => true)
    (G := System.anyStep) (fun _ _ _ => trivial)
    (w := [.item, .tick false, .tick false, .message (.init ⟨⟨1, 0⟩, 1⟩), .tick false, .tick false,
      .tick false, .message (.data [1]), .tick false, .tick false, .tick false, .readDone none [2]])
    (s := Socket.spawned .plain {} ⟨0, 0⟩ ⟨⟨1, 0⟩, 0⟩)
    (P := fun _ s => s.point = .onFuture ∧ s.nextRead.isSome = true ∧ s.p_.isReady = true ∧
      s.running = false ∧ s.dead = false) (by decide)
  exact ⟨tr, s, hr, hp, hn, hs, ((socket_events_kept hr).2 hrun hd (.inl hp)).2 hs⟩

end Eslang.Tcp
