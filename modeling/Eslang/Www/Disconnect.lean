import Eslang.Www.Session
import Mathlib

/-! # A session whose client disconnects

`~StreamBatcher` sends what the batcher holds through `makeSendAddress`, which raises when the
socket process is no longer in `processes_`; an exception out of a destructor terminates the
program. The link makes this the rule and not the exception: a session that is destroyed has its
socket killed first, so a batcher that is destroyed with it and holds anything terminates. -/
namespace Eslang.Www
set_option autoImplicit false
open Lib

namespace SessionRunner
variable {P Req Resp σ μ : Type} (r : SessionRunner P Req Resp σ μ)

/-- What the `StreamBatcher` in scope holds. -/
def held : Point Req → List Bytes
  | .chunking _ _ _ buffs => buffs
  | _ => []

def present (c : Context σ μ) : Bool := (c.findProc r.s_).isSome

/-- The socket process stays while it is needed: it is in the table when the session pushes into a
batcher, it does not leave it while a batcher holds anything, and neither is the session destroyed
then. -/
def SocketStays (s : Session P Req σ μ) : Act Resp σ μ → Prop
  | .response _ | .chunk _ | .chunksEnd => r.present s.context = true
  | .others c => held s.point ≠ [] → r.present c = true
  | .destroy => held s.point = []
  | .start | .received _ | .next | .raise _ => True

instance (s : Session P Req σ μ) (act : Act Resp σ μ) : Decidable (r.SocketStays s act) :=
  match act with
  | .response _ | .chunk _ | .chunksEnd =>
      inferInstanceAs (Decidable (r.present s.context = true))
  | .others c => inferInstanceAs (Decidable (held s.point ≠ [] → r.present c = true))
  | .destroy => inferInstanceAs (Decidable (held s.point = []))
  | .start | .received _ | .next | .raise _ => inferInstanceAs (Decidable True)

variable {r}

theorem clear_ok {c : Context σ μ} (hc : r.hosts c = true) {buffs : List Bytes}
    (hp : buffs ≠ [] → r.present c = true) :
    ∃ c', r.clear c buffs = .ok c' ∧ r.hosts c' = true ∧ r.present c' = r.present c := by
  unfold clear
  split
  next => exact ⟨c, rfl, hc, rfl⟩
  next hne =>
    obtain ⟨o, ho⟩ := Option.isSome_iff_exists.mp (hp (by simpa using hne))
    have hm : r.sendManyData < (c.heap o).members.length := by
      simpa [hosts, ho] using (Bool.and_eq_true_iff.mp hc).2
    have ha : c.makeSendAddress r.s_ r.sendManyData =
        .ok ⟨r.s_, (c.heap o).members.get ⟨_, hm⟩⟩ := by
      simp [Context.makeSendAddress, ho, hm]
    rw [ha]
    exact ⟨_, rfl, hc, rfl⟩

/-- The session is gone, or the socket process is in the table as long as a batcher holds
anything; the program has not terminated. -/
structure Served (r : SessionRunner P Req Resp σ μ) (s : Session P Req σ μ) : Prop where
  hosts : s.point = .destroyed ∨ r.hosts s.context = true
  present : held s.point ≠ [] → r.present s.context = true
  running : ∀ e, s.point ≠ .terminated e

theorem Served.endScope {s s' : Session P Req σ μ} {buffs : List Bytes} {next : Point Req}
    {notes notes' : List (Note Req)} (hc : r.hosts s.context = true)
    (hp : buffs ≠ [] → r.present s.context = true) (hn : held next = [])
    (ht : ∀ e, next ≠ .terminated e) (he : r.endScope s buffs next notes = (s', notes')) :
    r.Served s' := by
  obtain ⟨c', hclear, hc', -⟩ := clear_ok hc hp
  rcases endScope_cases he with ⟨c, hcl, rfl, -⟩ | ⟨e, hcl, rfl, -⟩
  · obtain rfl : c' = c := by simpa [hclear] using hcl
    exact ⟨.inr hc', fun h => absurd hn h, ht⟩
  · simp [hclear] at hcl

theorem clear_nil (c : Context σ μ) : r.clear c [] = .ok c := rfl

theorem Served.moveTo {s : Session P Req σ μ} (hs : r.Served s) {s' : Session P Req σ μ}
    (hd : s.point ≠ .destroyed) (hc : s'.context = s.context) (hh : held s'.point = [])
    (ht : ∀ e, s'.point ≠ .terminated e) : r.Served s' :=
  ⟨.inr (hc ▸ hs.hosts.resolve_left hd), fun h => absurd hh h, ht⟩

theorem Served.start {s : Session P Req σ μ} (hs : r.Served s) (hp : s.point = .starting) :
    r.Served (r.start s) := by
  have hc : r.hosts s.context = true := hs.hosts.resolve_left (by simp [hp])
  unfold SessionRunner.start
  split
  · exact hs.moveTo (by simp [hp]) rfl rfl (by simp)
  · refine ⟨.inr hc, fun h => absurd ?_ h, ?_⟩
    · cases s.keepAlive <;> rfl
    · cases s.keepAlive <;> simp [loopHead]

theorem moves_served {s s' : Session P Req σ μ} {act : Act Resp σ μ} {notes : List (Note Req)}
    (h : r.Moves s act s' notes) (hok : r.SocketStays s act) (hs : r.Served s) : r.Served s' := by
  have hhosts := hs.hosts
  cases h with
  | start hp => exact hs.start hp
  | received hp => exact hs.moveTo (by simp [hp]) rfl rfl (by simp)
  | again hp =>
    refine hs.moveTo (by simp [hp]) rfl ?_ ?_
    · cases s.keepAlive <;> rfl
    · cases s.keepAlive <;> simp [loopHead]
  | failed hp => exact hs.moveTo (by simp [hp]) rfl rfl (by simp)
  | request hp => exact hs.moveTo (by simp [hp]) rfl rfl (by simp)
  | respond hp he =>
    have hc : r.hosts s.context = true := hhosts.resolve_left (by simp [hp])
    rcases respond_cases he with ⟨pieces, rfl, -⟩ | ⟨pieces, he⟩ | ⟨pieces, e, he⟩
    · exact ⟨.inr hc, fun _ => hok, by simp⟩
    · exact .endScope hc (fun _ => hok) rfl (by simp) he
    · exact .endScope hc (fun _ => hok) rfl (by simp) he
  | raise hp => exact hs.moveTo (by simp [hp]) rfl rfl (by simp)
  | chunk hp => exact ⟨.inr (hhosts.resolve_left (by simp [hp])), fun _ => hok, by simp⟩
  | chunksEnd hp he =>
    exact .endScope (hhosts.resolve_left (by simp [hp])) (fun _ => hok) rfl (by simp) he
  | raiseChunked hp he =>
    have hc : r.hosts s.context = true := hhosts.resolve_left (by simp [hp])
    refine .endScope hc (fun hb => hs.present ?_) rfl (by simp) he
    rw [hp]
    exact hb
  | others hp hc => exact ⟨.inr hc, hok, hs.running⟩
  | destroy hp he =>
    obtain ⟨c, -, ⟨_, _, _, buffs, hp, he⟩ | ⟨rfl, -⟩⟩ := destroy_cases he
    · obtain rfl : buffs = [] := by simpa [SocketStays, hp, held] using hok
      rcases endScope_cases he with ⟨c', -, rfl, -⟩ | ⟨e, hcl, -, -⟩
      · exact ⟨.inl rfl, fun h => absurd rfl h, by simp⟩
      · simp [clear_nil] at hcl
    · exact ⟨.inl rfl, fun h => absurd rfl h, by simp⟩

/-- **No exception from `~StreamBatcher`.** In every run in which the socket process stays while it
is needed, no destructor of a `StreamBatcher` raises. -/
theorem batcher_destructor_quiet {c : Context σ μ} (hc : r.hosts c = true) {tr : List (Note Req)}
    {s : Session P Req σ μ} (h : r.system.Run r.SocketStays (r.initial c) tr s) :
    ∀ e, s.point ≠ .terminated e := by
  have hinit : r.Served (r.initial c) := ⟨.inr hc, fun h => absurd rfl h, by simp [initial]⟩
  have hs : r.Served s := h.invariant (fun _ s => r.Served s) hinit
    fun _ _ _ _ _ hs hok hst => moves_served (step_moves hst) hok hs
  exact hs.running

/-! ## What the link does to a batcher -/

theorem clear_absent {c : Context σ μ} {buffs : List Bytes} (hb : buffs ≠ [])
    (hf : c.findProc r.s_ = none) :
    r.clear c buffs = .error ("No process found for pid " ++ r.s_.toString) := by
  simp [clear, hb, Context.makeSendAddress, hf]

/-- A session that is destroyed while its batcher holds anything terminates the program. -/
theorem destroy_holding_terminates {s s' : Session P Req σ μ} {notes : List (Note Req)}
    (hc : r.hosts s.context = true) (hh : held s.point ≠ [])
    (h : r.step s .destroy = some (s', notes)) :
    s'.point = .terminated ("No process found for pid " ++ r.s_.toString) := by
  have hl : r.s_ ∈ (s.context.heap r.self).killOnDie := by
    simpa using (Bool.and_eq_true_iff.mp hc).1
  cases hp : s.point with
  | chunking req reqs failed buffs =>
    rw [hp] at hh
    cases step_moves h with
    | @destroy reason rest _ _ _ he =>
      have hgone := Context.findProc_destroy (c := { s.context with toDestroy := rest }) hl
        r.code.dtor reason
      rw [destroy, hp] at he
      dsimp only at he
      rcases endScope_cases he with ⟨c, hcl, -, -⟩ | ⟨e, hcl, rfl, -⟩
      · cases (clear_absent hh hgone).symm.trans hcl
      · cases (clear_absent hh hgone).symm.trans hcl
        rfl
  | _ => exact absurd (by simp [hp, held]) hh

theorem batcher_destructor_quiet_chunked : ∃ tr s,
    plainSession.system.Run plainSession.SocketStays (plainSession.initial linkedContext) tr s ∧
      s.point = .receiving ∧ ∀ e, s.point ≠ .terminated e := by
  obtain ⟨tr, s, hrun, hp⟩ := System.exec_reaches (M := plainSession.system)
    (g := fun s act => decide (plainSession.SocketStays s act)) (G := plainSession.SocketStays)
    (fun _ _ h => of_decide_eq_true h)
    (w := [.start, .received getRoot, .next, .response true, .chunk [1], .chunksEnd, .next])
    (s := plainSession.initial linkedContext) (P := fun _ s => s.point = .receiving) (by decide)
  exact ⟨tr, s, hrun, hp, batcher_destructor_quiet (by decide) hrun⟩

/-- The client goes away while `getChunked` is suspended: the socket process kills itself and the
link takes the session with it. -/
def disconnected : Context Unit (List Bytes) :=
  { linkedContext.addtoDestroy ⟨0, 0⟩ "" with toDestroy := [] }.destroy id 0 ""

/-- The handler of a chunked response is suspended when the client disconnects. -/
theorem batcher_destructor_terminates : ∃ tr s,
    plainSession.system.Run System.anyStep (plainSession.initial linkedContext) tr s ∧
      s.point = .terminated "No process found for pid 00" := by
  obtain ⟨tr, s, hrun, hp⟩ := System.exec_reaches (M := plainSession.system)
    (g := fun _ _ => true) (G := System.anyStep) (fun _ _ _ => trivial)
    (w := [.start, .received getRoot, .next, .response true, .others disconnected, .destroy])
    (s := plainSession.initial linkedContext)
    (P := fun _ s => s.point = .terminated "No process found for pid 00") (by decide)
  exact ⟨tr, s, hrun, hp⟩

end SessionRunner

end Eslang.Www
