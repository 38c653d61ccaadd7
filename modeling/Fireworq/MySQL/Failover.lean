import Fireworq.MySQL.Primary
import Fireworq.MySQL.Stop

namespace Fireworq.MySQL.Activator

open NamedLock Execution Function

variable {w w' : World} {n m : ℕ} {v v' : Node} {s t : State} {es : List Event} {a : Action}

def Action.calm : Action → Bool
  | .connect ok | .hasLock ok => ok
  | .lockFailed _ _ | .lockTimeout | .lockNull => false
  | .setStopped _ | .loadCancel _ | .callCancel _ => false
  | _ => true

def Event.calm : Event → Bool
  | .node _ a => a.calm
  | .reap _ => true
  | .lose _ | .grantAbandoned _ => false

def Pc.left : Pc → Bool
  | .leaving | .disconnecting | .signalling | .ended => true
  | _ => false

def Pc.detached : Pc → Bool
  | .waiting | .connecting | .leaving | .disconnecting | .signalling | .ended => true
  | _ => false

structure Sound (v : Node) : Prop where
  left : v.pc.left = true → v.stopped = true
  opened : v.db = .closed → v.pc.detached = true

theorem Sound.acts (hs : Sound v) (h : Acts w n v a v' w') : Sound v' := by
  obtain ⟨hleft, hopened⟩ := hs
  cases h with
  | begin | loadStopped | lockCanceled =>
    constructor <;> cases hst : v.stopped <;> simp_all [Pc.left, Pc.detached]
  | dial hpc => exact ⟨hleft, nofun⟩
  | _ => constructor <;> simp_all [Pc.left, Pc.detached]

section Holder

def Held (s : State) : Prop := ∀ c, s.world.server.owner = some c →
  s.world.abandoned c = true ∨ ∃ m, (s.nodes m).db.connection = some c

theorem act_owner {c : ℕ} (h : act w n v a = some (v', w')) (hc : w'.server.owner = some c) :
    w'.abandoned c = true ∨ v'.db.connection = some c ∨
      w.server.owner = some c ∧ v.db.connection ≠ some c := by
  have hkeep (hdb : v'.db = v.db) (ho : w.server.owner = some c) : w'.abandoned c = true ∨
      v'.db.connection = some c ∨ w.server.owner = some c ∧ v.db.connection ≠ some c := by
    rw [hdb]
    by_cases hown : v.db.connection = some c
    · exact .inr (.inl hown)
    · exact .inr (.inr ⟨ho, hown⟩)
  have hgrant {server : Server} (hs : server = w.server ∨
      ∃ c, v.db.connection = some c ∧ w.server.grant c = some server)
      (ho : server.owner = some c) : w.server.owner = some c ∨ v.db.connection = some c := by
    rcases hs with rfl | ⟨d, hd, hg⟩
    · exact .inl ho
    · rw [(grant_cases hg).2.2.1] at ho
      exact .inr (hd.trans ho)
  cases act_acts h with
  | dial =>
    refine .inr (.inr ⟨hc, fun hown ↦ ?_⟩)
    have hdead := dial_dead h hown
    have hlive := w.server.owner_live c hc
    rw [hdead] at hlive
    cases hlive
  | connect _ hdb => exact .inr (.inr ⟨hc, by rw [hdb]; exact nofun⟩)
  | lockGranted _ hd hg =>
    rcases hgrant (.inr ⟨_, hd, hg⟩) hc with ho | ho
    · exact hkeep rfl ho
    · exact .inr (.inl ho)
  | lockFailed _ hs =>
    rcases hgrant hs hc with ho | ho
    · exact hkeep rfl ho
    · exact .inr (.inl ho)
  | lockCanceled _ hs =>
    rw [World.abandon_eq] at hc ⊢
    by_cases hown : v.db.connection = some c
    · refine .inl ?_
      rw [hown]
      exact update_self _ _ _
    · exact .inr (.inr ⟨(hgrant hs hc).resolve_right hown, hown⟩)
  | retry | disconnect =>
    rw [World.close_eq] at hc
    refine .inr (.inr ⟨?_, fun hown ↦ ?_⟩)
    · cases hdb : v.db.connection with
      | none =>
        rw [hdb] at hc
        exact hc
      | some d =>
        rw [hdb] at hc
        exact owner_of_close hc
    · rw [hown] at hc
      have hlive := (w.server.close c).owner_live c hc
      exact Bool.false_ne_true ((update_self _ _ _).symm.trans hlive)
  | _ => exact hkeep rfl hc

theorem act_step (h : step s (.node n a) = some t) :
    ∃ v w, act s.world n (s.nodes n) a = some (v, w) ∧ t = ⟨w, update s.nodes n v⟩ := by
  obtain ⟨⟨v, w⟩, hact, rfl⟩ := Option.map_eq_some_iff.mp h
  exact ⟨v, w, hact, rfl⟩

theorem Held.step {e : Event} (hh : Held s) (h : step s e = some t) : Held t := by
  intro c hc
  cases e with
  | node n a =>
    obtain ⟨v, w, hact, rfl⟩ := act_step h
    rcases act_owner hact hc with hab | hown | ⟨ho, hne⟩
    · exact .inl hab
    · exact .inr ⟨n, by simpa only [update_self] using hown⟩
    · rcases hh c ho with hab | ⟨m, hm⟩
      · exact .inl ((act_acts hact).abandoned hab)
      · have hmn : m ≠ n := by
          rintro rfl
          exact hne hm
        exact .inr ⟨m, by simpa only [update_of_ne hmn] using hm⟩
  | lose d =>
    obtain ⟨-, rfl⟩ := lose_step h
    exact hh c (owner_of_close hc)
  | reap d =>
    obtain ⟨-, rfl⟩ := reap_step h
    exact hh c (owner_of_close hc)
  | grantAbandoned d =>
    obtain ⟨hab, server, hg, rfl⟩ := grantAbandoned_step h
    rw [show server.owner = some d from (grant_cases hg).2.2.1] at hc
    cases hc
    exact .inl hab

theorem Sound.step {e : Event} (hs : Sound (s.nodes n)) (h : step s e = some t) :
    Sound (t.nodes n) := by
  rcases node_moves h n with ⟨hsame, -⟩ | ⟨a, -, hacts⟩
  · rw [hsame]
    exact hs
  · exact hs.acts hacts

theorem Run.held (h : Run es s) : Held s :=
  invariant Held (fun _ _ _ hh hs ↦ hh.step hs) h nofun

theorem Run.sound (h : Run es s) (n : ℕ) : Sound (s.nodes n) :=
  invariant (fun s ↦ Sound (s.nodes n)) (fun _ _ _ hs hstep ↦ hs.step hstep) h
    ⟨nofun, fun _ ↦ rfl⟩

end Holder

section Promotion

def holds (w : World) (v : Node) : Bool :=
  v.db.connection.any fun c ↦ w.server.owner = some c

def attached (w : World) (v : Node) : Bool := v.db.connection.any w.server.live

def serves (w : World) (v : Node) : Bool := v.isActive && holds w v

structure Ready (w : World) (v : Node) : Prop where
  running : v.stopped = false
  stays : v.pc.left = false
  opened : v.db = .closed → v.pc = .waiting ∨ v.pc = .connecting
  free : ∀ c, w.server.owner = some c → v.db.connection = some c

/-- How many steps a node is away from being the primary at most, with or
without the lock and a connection. Without the lock, a node that is about to be
active has to come around again. -/
def Pc.distance (holds attached : Bool) : Pc → ℕ
  | .checked true | .recovered => if holds then 1 else 13
  | .activating => if holds then 2 else 14
  | .granted => if holds then 3 else 15
  | .issued _ => if attached then 4 else 5
  | .locking _ => 6
  | .storing => 7
  | .checked false => 8
  | .checking => if holds then 2 else if attached then 9 else 10
  | .connecting => if holds then 3 else 11
  | .waiting => if holds then 4 else 12
  | .failed => 13
  | .leaving | .disconnecting | .signalling | .ended => 0

def distance (w : World) (v : Node) : ℕ := v.pc.distance (holds w v) (attached w v)

def remaining (w : World) (v : Node) : ℕ := if serves w v then 0 else distance w v

theorem remaining_le (w : World) (v : Node) : remaining w v ≤ distance w v := by
  unfold remaining
  split
  · exact Nat.zero_le _
  · exact Nat.le_refl _

theorem holds_iff : holds w v = true ↔ ∃ c, v.db.connection = some c ∧ w.server.owner = some c := by
  simp [holds, Option.any_eq_true]

theorem attached_iff :
    attached w v = true ↔ ∃ c, v.db.connection = some c ∧ w.server.live c = true := by
  simp [attached, Option.any_eq_true]

theorem holds_congr (hdb : v'.db = v.db) (hserver : w'.server = w.server) :
    holds w' v' = holds w v := by
  rw [holds, holds, hdb, hserver]

theorem attached_congr (hdb : v'.db = v.db) (hserver : w'.server = w.server) :
    attached w' v' = attached w v := by
  rw [attached, attached, hdb, hserver]

theorem attached_of_holds (h : holds w v = true) : attached w v = true := by
  obtain ⟨c, hc, ho⟩ := holds_iff.mp h
  exact attached_iff.mpr ⟨c, hc, w.server.owner_live c ho⟩

theorem Ready.move (hr : Ready w v) (hdb : v'.db = v.db) (hstopped : v'.stopped = v.stopped)
    (hserver : w'.server = w.server) (hpc : v'.pc.left = false)
    (hopened : v.db = .closed → v'.pc = .waiting ∨ v'.pc = .connecting) : Ready w' v' where
  running := hstopped.trans hr.running
  stays := hpc
  opened h := hopened (hdb ▸ h)
  free c hc := by
    rw [hdb]
    exact hr.free c (hserver ▸ hc)

theorem Ready.not_closed (hr : Ready w v) (hpc : v.pc.detached = false) : v.db ≠ .closed := by
  intro hdb
  rcases hr.opened hdb with h | h <;> simp [h, Pc.detached] at hpc

theorem Ready.dial (hr : Ready w v) (hdead : attached w v = false) (hdb : v.db ≠ .closed) :
    ∃ v' w', w.dial n v = some (v', w') ∧ Ready w' v' ∧ v'.pc = v.pc ∧ v'.active = v.active ∧
      attached w' v' = true ∧ holds w' v' = false := by
  have howner : w.server.owner = none := by
    cases ho : w.server.owner with
    | none => rfl
    | some c =>
      have hholds := holds_iff.mpr ⟨c, hr.free c ho, ho⟩
      rw [attached_of_holds hholds] at hdead
      cases hdead
  cases hcase : v.db with
  | closed => exact absurd hcase hdb
  | opened connection =>
    have hany : connection.any w.server.live = false := by
      rw [attached, hcase] at hdead
      exact hdead
    have hdial : w.dial n v = some ({ v with db := .opened (some w.server.next) },
        { w with
          server := w.server.dial
          dialer := update w.dialer w.server.next (some n) }) := by
      rw [World.dial, hcase]
      dsimp only
      rw [hany]
      rfl
    refine ⟨_, _, hdial, ⟨hr.running, hr.stays, nofun, fun c hc ↦ ?_⟩, rfl, rfl, ?_, ?_⟩
    · cases howner.symm.trans hc
    · exact attached_iff.mpr ⟨_, rfl, update_self _ _ _⟩
    · refine Bool.eq_false_iff.mpr fun hholds ↦ ?_
      obtain ⟨c, -, hc⟩ := holds_iff.mp hholds
      cases howner.symm.trans hc

theorem Ready.grant (hr : Ready w v) (h : attached w v = true) :
    ∃ c server, v.db.connection = some c ∧ w.server.grant c = some server := by
  obtain ⟨c, hc, hlive⟩ := attached_iff.mp h
  have hfree : w.server.owner = none ∨ w.server.owner = some c := by
    cases ho : w.server.owner with
    | none => exact .inl rfl
    | some d =>
      refine .inr ?_
      rw [← hr.free d ho, hc]
  exact ⟨c, _, hc, dif_pos ⟨hlive, hfree⟩⟩

/-- The lock is free after its owner, if any, has closed the handle. -/
theorem close_frees (hfree : ∀ c, w.server.owner = some c → v.db.connection = some c) :
    (w.close v.db).server.owner = none := by
  refine Option.eq_none_iff_forall_ne_some.mpr fun c ho ↦ ?_
  rw [World.close_eq] at ho
  cases hdb : v.db.connection with
  | none =>
    rw [hdb] at ho
    rw [hfree c ho] at hdb
    cases hdb
  | some d =>
    rw [hdb] at ho
    have hlive := (w.server.close d).owner_live c ho
    rw [hfree c (owner_of_close ho)] at hdb
    cases hdb
    exact absurd ((update_self _ _ _).symm.trans hlive) Bool.false_ne_true

def Approaches (w : World) (n : ℕ) (v : Node) : Prop :=
  ∃ a v' w', a.calm = true ∧ act w n v a = some (v', w') ∧ Ready w' v' ∧
    remaining w' v' < distance w v

theorem Approaches.intro (hcalm : a.calm = true) (hact : act w n v a = some (v', w'))
    (hready : Ready w' v') (hlt : distance w' v' < distance w v) : Approaches w n v :=
  ⟨a, v', w', hcalm, hact, hready, Nat.lt_of_le_of_lt (remaining_le _ _) hlt⟩

theorem Ready.along (hr : Ready w v) {pc : Pc} (pc' : Pc) (hcalm : a.calm = true)
    (hact : act w n v a = some (v', w')) (hdb : v'.db = v.db) (hstopped : v'.stopped = v.stopped)
    (hserver : w'.server = w.server)
    (hopened : v.db = .closed → v'.pc = .waiting ∨ v'.pc = .connecting)
    (hpc : v.pc = pc) (hpc' : v'.pc = pc') (hleft : pc'.left = false)
    (hlt : ∀ holds attached, pc'.distance holds attached < pc.distance holds attached) :
    Approaches w n v := by
  refine .intro hcalm hact (hr.move hdb hstopped hserver (hpc' ▸ hleft) hopened) ?_
  rw [distance, distance, holds_congr hdb hserver, attached_congr hdb hserver, hpc, hpc']
  exact hlt _ _

theorem Ready.activate (hr : Ready w v) (hcalm : a.calm = true)
    (hact : act w n v a = some ({ v with active := 1, pc := .waiting }, w))
    (hopened : v.db ≠ .closed)
    (hpc : ∀ attached, v.pc.distance true attached = 1 ∧ v.pc.distance false attached = 13) :
    Approaches w n v := by
  refine ⟨a, _, _, hcalm, hact, hr.move rfl rfl rfl rfl fun hdb ↦ absurd hdb hopened, ?_⟩
  have hholds : holds w { v with active := 1, pc := .waiting } = holds w v := holds_congr rfl rfl
  rw [remaining, serves, distance, distance, hholds]
  cases holds w v with
  | true =>
    rw [(hpc _).1]
    exact Nat.zero_lt_one
  | false =>
    rw [(hpc _).2, Bool.and_false]
    exact Nat.lt_succ_self 12

theorem Ready.connect (hr : Ready w v) (hpc : v.pc = .connecting) : Approaches w n v := by
  cases hdb : v.db with
  | closed =>
    have hnone : v.db.connection = none := congrArg DB.connection hdb
    have hfree : w.server.owner = none :=
      Option.eq_none_iff_forall_ne_some.mpr fun c ho ↦ by
        rw [hr.free c ho] at hnone
        cases hnone
    have hact : act w n v (.connect true) =
        some ({ v with db := .opened none, pc := .checking }, w) := by
      simp [act, hpc, hdb]
    refine .intro rfl hact ⟨hr.running, rfl, by simp, fun c hc ↦ ?_⟩ ?_
    · cases hfree.symm.trans hc
    · have hnot : holds w v = false := by rw [holds, hnone]; rfl
      rw [distance, distance, hnot, hpc]
      exact Nat.lt_succ_self 10
  | opened connection =>
    have hact : act w n v (.connect true) = some ({ v with pc := .checking }, w) := by
      simp [act, hpc, hdb]
    refine hr.along .checking rfl hact rfl rfl rfl (fun h ↦ ?_) hpc rfl rfl (by decide)
    rw [hdb] at h
    cases h

theorem Ready.reconnect (hr : Ready w v) (hattached : attached w v = false)
    (hpc : v.pc = .checking ∨ ∃ k, v.pc = .issued k) : Approaches w n v := by
  have hopened : v.db ≠ .closed := by
    rcases hpc with hpc | ⟨k, hpc⟩ <;> exact hr.not_closed (by rw [hpc]; rfl)
  obtain ⟨v', w', hdial, hready, hpc', -, ha, hh⟩ := hr.dial (n := n) hattached hopened
  have hnot : holds w v = false := by
    refine Bool.eq_false_iff.mpr fun h ↦ ?_
    rw [attached_of_holds h] at hattached
    cases hattached
  refine .intro (a := .dial) rfl ?_ hready ?_
  · rcases hpc with hpc | ⟨k, hpc⟩ <;> simp [act, hpc, hdial]
  · rw [distance, distance, ha, hh, hattached, hnot, hpc']
    rcases hpc with hpc | ⟨k, hpc⟩ <;> rw [hpc]
    · exact Nat.lt_succ_self 9
    · exact Nat.lt_succ_self 4

theorem Ready.check (hr : Ready w v) (hpc : v.pc = .checking) : Approaches w n v := by
  have hopened := hr.not_closed (by rw [hpc]; rfl)
  cases hattached : attached w v with
  | false => exact hr.reconnect hattached (.inl hpc)
  | true =>
    obtain ⟨c, hc, hlive⟩ := attached_iff.mp hattached
    by_cases ho : w.server.owner = some c
    · have hholds : holds w v = true := holds_iff.mpr ⟨c, hc, ho⟩
      have hact : act w n v (.hasLock true) =
          some ({ v with pc := .checked true, acquired := some c }, w) := by
        simp [act, hpc, hc, hlive, ho]
      refine .intro rfl hact (hr.move rfl rfl rfl rfl fun h ↦ absurd h hopened) ?_
      have hholds' : holds w { v with pc := .checked true, acquired := some c } = true := hholds
      rw [distance, distance, hholds', hholds, hpc]
      exact Nat.lt_succ_self 1
    · have hnot : holds w v = false := by simp [holds, hc, ho]
      have hact : act w n v (.hasLock true) = some ({ v with pc := .checked false }, w) := by
        simp [act, hpc, hc, hlive, ho]
      refine .intro rfl hact (hr.move rfl rfl rfl rfl fun h ↦ absurd h hopened) ?_
      rw [distance, distance, hnot, hattached, hpc]
      exact Nat.lt_succ_self 8

theorem Ready.lock {k : ℕ} (hr : Ready w v) (hpc : v.pc = .issued k) : Approaches w n v := by
  cases hattached : attached w v with
  | false => exact hr.reconnect hattached (.inr ⟨k, hpc⟩)
  | true =>
    obtain ⟨c, server, hc, hg⟩ := hr.grant hattached
    have howner := (grant_cases hg).2.2.1
    have hact : act w n v .lockGranted =
        some ({ v with pc := .granted, acquired := some c }, { w with server := server }) := by
      simp [act, hpc, World.grant, hc, hg]
    have hholds : holds { w with server := server } { v with pc := .granted, acquired := some c } =
        true := holds_iff.mpr ⟨c, hc, howner⟩
    refine .intro rfl hact ⟨hr.running, rfl, fun h ↦ ?_, fun d hd ↦ ?_⟩ ?_
    · exact absurd h (hr.not_closed (by rw [hpc]; rfl))
    · cases howner.symm.trans hd
      exact hc
    · rw [distance, distance, hholds, hattached, hpc]
      exact Nat.lt_succ_self 3

theorem Ready.nearer (hr : Ready w v) : Approaches w n v := by
  have hopen (hpc : v.pc.detached = false) {pc : Pc} (hdb : v.db = .closed) :
      pc = .waiting ∨ pc = .connecting := absurd hdb (hr.not_closed hpc)
  cases hpc : v.pc with
  | waiting =>
    have hact : act w n v .begin = some ({ v with pc := .connecting }, w) := by
      simp [act, hpc, hr.running]
    exact hr.along .connecting rfl hact rfl rfl rfl (fun _ ↦ .inr rfl) hpc rfl rfl (by decide)
  | connecting => exact hr.connect hpc
  | checking => exact hr.check hpc
  | checked hasLock =>
    rw [hpc] at hopen
    cases hasLock with
    | true =>
      refine hr.activate (a := .swapActive) rfl (by simp [act, hpc])
        (hr.not_closed (by rw [hpc]; rfl)) fun _ ↦ ?_
      rw [hpc]
      exact ⟨rfl, rfl⟩
    | false =>
      have hact : act w n v .swapActive = some ({ v with active := 0, pc := .storing }, w) := by
        simp [act, hpc]
      exact hr.along .storing rfl hact rfl rfl rfl (hopen rfl) hpc rfl rfl (by decide)
  | storing =>
    rw [hpc] at hopen
    have hact : act w n v .storeCancel =
        some ({ v with cancel := some w.nextContext, pc := .locking w.nextContext },
          { w with nextContext := w.nextContext + 1 }) := by
      simp [act, hpc]
    exact hr.along (.locking _) rfl hact rfl rfl rfl (hopen rfl) hpc rfl rfl
      fun _ _ ↦ Nat.lt_succ_self 6
  | locking k =>
    rw [hpc] at hopen
    have hact : act w n v .loadStopped = some ({ v with pc := .issued k }, w) := by
      simp [act, hpc, hr.running]
    refine hr.along (.issued k) rfl hact rfl rfl rfl (hopen rfl) hpc rfl rfl fun _ attached ↦ ?_
    cases attached <;> simp [Pc.distance]
  | issued k => exact hr.lock hpc
  | failed =>
    have hclose := close_frees hr.free
    have hact : act w n v .disconnect =
        some ({ v with db := .closed, pc := .waiting }, w.close v.db) := by
      simp [act, hpc]
    refine .intro rfl hact ⟨hr.running, rfl, fun _ ↦ .inl rfl, fun c hc ↦ ?_⟩ ?_
    · cases hclose.symm.trans hc
    · rw [distance, distance, hpc]
      exact Nat.lt_succ_self 12
  | granted =>
    rw [hpc] at hopen
    have hact : act w n v .onActivating = some ({ v with pc := .activating }, w) := by
      simp [act, hpc]
    exact hr.along .activating rfl hact rfl rfl rfl (hopen rfl) hpc rfl rfl (by decide)
  | activating =>
    rw [hpc] at hopen
    have hact : act w n v .activated = some ({ v with pc := .recovered }, w) := by
      simp [act, hpc]
    exact hr.along .recovered rfl hact rfl rfl rfl (hopen rfl) hpc rfl rfl (by decide)
  | recovered =>
    refine hr.activate (a := .storeActive) rfl (by simp [act, hpc])
      (hr.not_closed (by rw [hpc]; rfl)) fun _ ↦ ?_
    rw [hpc]
    exact ⟨rfl, rfl⟩
  | leaving | disconnecting | signalling | ended =>
    have hstays := hr.stays
    rw [hpc] at hstays
    cases hstays

/-- A node that the lock is free for becomes the primary. -/
theorem Ready.leads (hr : Ready s.world (s.nodes n)) :
    Leads step (fun e ↦ e.calm = true) (fun t ↦ serves t.world (t.nodes n) = true) s := by
  refine (leads_of_weight (fun s ↦ Ready s.world (s.nodes n))
    (fun s ↦ serves s.world (s.nodes n) = true) (fun e ↦ e.calm = true)
    (fun s ↦ remaining s.world (s.nodes n)) (fun s hs hG ↦ ?_) hr).mono (fun _ he ↦ he)
    fun _ ht ↦ ht.2
  obtain ⟨a, v, w, hcalm, hact, hready, hlt⟩ := hs.nearer (n := n)
  have hstep : step s (.node n a) = some ⟨w, update s.nodes n v⟩ := by
    rw [step, hact]
    rfl
  refine ⟨.node n a, _, hcalm, hstep, ?_, ?_⟩
  · simpa only [update_self] using hready
  · simp only [update_self]
    rw [remaining.eq_def s.world, if_neg hG]
    exact hlt

end Promotion

section Resignation

structure Quits (w : World) (v : Node) : Prop where
  stopped : v.stopped = true
  owner : holds w v = true
  ends : Ends v

/-- How many steps a node is away from giving the lock back at most. On some of
its ways it serves as the primary once more before. -/
def Pc.quitting : Pc → ℕ
  | .checked false => 5
  | .storing | .issued _ => 4
  | .waiting | .connecting | .locking _ | .granted => 3
  | .leaving | .checking | .activating => 2
  | .disconnecting | .checked true | .recovered | .failed => 1
  | .signalling | .ended => 0

def Settled (w : World) (v : Node) : Prop := w.server.owner = none ∨ serves w v = true

instance : Decidable (Settled w v) := inferInstanceAs (Decidable (_ ∨ _))

theorem Quits.free (hq : Quits w v) : ∀ c, w.server.owner = some c → v.db.connection = some c := by
  intro c hc
  obtain ⟨d, hd, ho⟩ := holds_iff.mp hq.owner
  rw [hd, ← ho, hc]

theorem Quits.quitting_pos (hq : Quits w v) : 0 < v.pc.quitting := by
  have hend (h : v.pc = .signalling ∨ v.pc = .ended) : False := by
    obtain ⟨c, hc, -⟩ := holds_iff.mp hq.owner
    rw [hq.ends.closed h] at hc
    cases hc
  cases hpc : v.pc with
  | signalling => exact (hend (.inl hpc)).elim
  | ended => exact (hend (.inr hpc)).elim
  | checked hasLock => cases hasLock <;> exact Nat.zero_lt_succ _
  | _ => exact Nat.zero_lt_succ _

def Resigns (w : World) (n : ℕ) (v : Node) : Prop :=
  ∃ a v' w', a.calm = true ∧ act w n v a = some (v', w') ∧
    (Settled w' v' ∨ Quits w' v' ∧ v'.pc.quitting < v.pc.quitting)

theorem Quits.along (hq : Quits w v) {pc : Pc} (pc' : Pc) (hcalm : a.calm = true)
    (hact : act w n v a = some (v', w')) (hstopped : v'.stopped = v.stopped)
    (hholds : holds w' v' = true) (hpc : v.pc = pc) (hpc' : v'.pc = pc')
    (hlt : pc'.quitting < pc.quitting) : Resigns w n v := by
  refine ⟨a, v', w', hcalm, hact, .inr ⟨⟨hstopped.trans hq.stopped, hholds, ?_⟩, ?_⟩⟩
  · exact hq.ends.acts (act_acts hact)
  · rw [hpc, hpc']
    exact hlt

theorem Quits.nearer (hq : Quits w v) : Resigns w n v := by
  have hholds := hq.owner
  obtain ⟨c, hc, ho⟩ := holds_iff.mp hholds
  have hserve {v' : Node} (hactive : v'.active = 1) (hdb : v'.db = v.db) : Settled w v' :=
    .inr (by simp [serves, Node.isActive, hactive, holds_congr hdb rfl, hholds])
  have hclose := close_frees hq.free
  cases hpc : v.pc with
  | waiting =>
    have hact : act w n v .begin = some ({ v with pc := .leaving }, w) := by
      simp [act, hpc, hq.stopped]
    exact hq.along .leaving rfl hact rfl hholds hpc rfl (by decide)
  | connecting =>
    have hact : act w n v (.connect true) = some ({ v with pc := .checking }, w) := by
      cases hdb : v.db with
      | closed =>
        rw [hdb] at hc
        cases hc
      | opened => simp [act, hpc, hdb]
    exact hq.along .checking rfl hact rfl hholds hpc rfl (by decide)
  | checking =>
    have hact : act w n v (.hasLock true) =
        some ({ v with pc := .checked true, acquired := some c }, w) := by
      simp [act, hpc, hc, w.server.owner_live c ho, ho]
    exact hq.along (.checked true) rfl hact rfl hholds hpc rfl (by decide)
  | checked hasLock =>
    cases hasLock with
    | true =>
      have hact : act w n v .swapActive = some ({ v with active := 1, pc := .waiting }, w) := by
        simp [act, hpc]
      exact ⟨_, _, _, rfl, hact, .inl (hserve rfl rfl)⟩
    | false =>
      have hact : act w n v .swapActive = some ({ v with active := 0, pc := .storing }, w) := by
        simp [act, hpc]
      exact hq.along .storing rfl hact rfl hholds hpc rfl (by decide)
  | storing =>
    have hact : act w n v .storeCancel =
        some ({ v with cancel := some w.nextContext, pc := .locking w.nextContext },
          { w with nextContext := w.nextContext + 1 }) := by
      simp [act, hpc]
    exact hq.along (.locking _) rfl hact rfl hholds hpc rfl (Nat.lt_succ_self 3)
  | locking k =>
    have hact : act w n v .loadStopped = some ({ v with pc := .leaving }, w) := by
      simp [act, hpc, hq.stopped]
    exact hq.along .leaving rfl hact rfl hholds hpc rfl (Nat.lt_succ_self 2)
  | issued k =>
    have hgrant : ∃ server, w.server.grant c = some server :=
      ⟨_, dif_pos ⟨w.server.owner_live c ho, .inr ho⟩⟩
    obtain ⟨server, hg⟩ := hgrant
    have hact : act w n v .lockGranted =
        some ({ v with pc := .granted, acquired := some c }, { w with server := server }) := by
      simp [act, hpc, World.grant, hc, hg]
    refine hq.along .granted rfl hact rfl ?_ hpc rfl (Nat.lt_succ_self 3)
    exact holds_iff.mpr ⟨c, hc, (grant_cases hg).2.2.1⟩
  | failed =>
    have hact : act w n v .disconnect =
        some ({ v with db := .closed, pc := .waiting }, w.close v.db) := by
      simp [act, hpc]
    exact ⟨_, _, _, rfl, hact, .inl (.inl hclose)⟩
  | granted =>
    have hact : act w n v .onActivating = some ({ v with pc := .activating }, w) := by
      simp [act, hpc]
    exact hq.along .activating rfl hact rfl hholds hpc rfl (by decide)
  | activating =>
    have hact : act w n v .activated = some ({ v with pc := .recovered }, w) := by
      simp [act, hpc]
    exact hq.along .recovered rfl hact rfl hholds hpc rfl (by decide)
  | recovered =>
    have hact : act w n v .storeActive = some ({ v with active := 1, pc := .waiting }, w) := by
      simp [act, hpc]
    exact ⟨_, _, _, rfl, hact, .inl (hserve rfl rfl)⟩
  | leaving =>
    have hact : act w n v .clearActive =
        some ({ v with active := 0, pc := .disconnecting }, w) := by
      simp [act, hpc]
    exact hq.along .disconnecting rfl hact rfl hholds hpc rfl (by decide)
  | disconnecting =>
    have hact : act w n v .disconnect =
        some ({ v with db := .closed, pc := .signalling }, w.close v.db) := by
      simp [act, hpc]
    exact ⟨_, _, _, rfl, hact, .inl (.inl hclose)⟩
  | signalling | ended =>
    have hpos := hq.quitting_pos
    rw [hpc] at hpos
    cases hpos

/-- A node that is to stop gives the lock back without a step of the others, or
is the primary once more. -/
theorem Quits.leads (hq : Quits s.world (s.nodes m)) (hne : n ≠ m) :
    Leads step (fun e ↦ e.calm = true)
      (fun t ↦ t.nodes n = s.nodes n ∧ Settled t.world (t.nodes m)) s := by
  refine (leads_of_weight
    (fun t ↦ t.nodes n = s.nodes n ∧
      (Settled t.world (t.nodes m) ∨ Quits t.world (t.nodes m)))
    (fun t ↦ Settled t.world (t.nodes m)) (fun e ↦ e.calm = true)
    (fun t ↦ if Settled t.world (t.nodes m) then 0 else (t.nodes m).pc.quitting)
    (fun t ht hG ↦ ?_) ⟨rfl, .inr hq⟩).mono (fun _ he ↦ he) fun _ ht ↦ ⟨ht.1.1, ht.2⟩
  have hquits := ht.2.resolve_left hG
  obtain ⟨a, v, w, hcalm, hact, hdone⟩ := hquits.nearer (n := m)
  have hstep : step t (.node m a) = some ⟨w, update t.nodes m v⟩ := by
    rw [step, hact]
    rfl
  refine ⟨.node m a, _, hcalm, hstep, ⟨?_, ?_⟩, ?_⟩
  · rw [← ht.1]
    exact update_of_ne hne _ _
  · simp only [update_self]
    exact hdone.imp_right And.left
  · simp only [update_self]
    rw [if_neg hG]
    split
    · exact hquits.quitting_pos
    · exact (hdone.resolve_left ‹_›).2

end Resignation

section Failover

theorem Sound.ready (hs : Sound v) (hrunning : v.stopped = false)
    (hfree : ∀ c, w.server.owner = some c → v.db.connection = some c) : Ready w v := by
  have hstays : v.pc.left = false := by
    refine Bool.eq_false_iff.mpr fun hleft ↦ ?_
    rw [hs.left hleft] at hrunning
    cases hrunning
  refine ⟨hrunning, hstays, fun hdb ↦ ?_, hfree⟩
  have hdetached := hs.opened hdb
  cases hpc : v.pc with
  | waiting => exact .inl rfl
  | connecting => exact .inr rfl
  | leaving | disconnecting | signalling | ended =>
    rw [hpc] at hstays
    cases hstays
  | _ =>
    rw [hpc] at hdetached
    cases hdetached

/-- Without the owner of the lock, a node that is not to stop becomes the
primary. -/
theorem ready_of_free (hs : Sound (s.nodes n)) (hrunning : (s.nodes n).stopped = false)
    (hfree : s.world.server.owner = none) : Ready s.world (s.nodes n) := by
  refine hs.ready hrunning fun c hc ↦ ?_
  cases hfree.symm.trans hc

theorem close_owner_self {server : Server} {c : ℕ} (h : server.owner = some c) :
    (server.close c).owner = none := if_pos h

/-- As long as one activator is not stopped, the activators can get to a primary from
every reachable state by steps that succeed. An activator that is not stopped can
become the primary itself if the owner of the lock loses its connection. -/
theorem failover (h : Run es s) (hn : (s.nodes n).stopped = false) :
    Leads step (fun e ↦ e.calm = true) (fun t ↦ ∃ m, serves t.world (t.nodes m) = true) s ∧
      Leads step (fun e ↦ e.calm = true ∨ ∃ c, s.world.server.owner = some c ∧ e = .lose c)
        (fun t ↦ serves t.world (t.nodes n) = true) s := by
  have hsound := h.sound n
  have hpromote {t : State} (hr : Ready t.world (t.nodes n)) : Leads step
      (fun e ↦ e.calm = true) (fun t ↦ ∃ m, serves t.world (t.nodes m) = true) t :=
    hr.leads.mono (fun _ he ↦ he) fun _ ht ↦ ⟨n, ht⟩
  cases howner : s.world.server.owner with
  | none =>
    have hr := ready_of_free hsound hn howner
    exact ⟨hpromote hr, hr.leads.mono (fun _ he ↦ .inl he) fun _ ht ↦ ht⟩
  | some c =>
    have hlive := s.world.server.owner_live c howner
    cases hab : s.world.abandoned c with
    | true =>
      have hreap : step s (.reap c) =
          some { s with world := { s.world with server := s.world.server.close c } } :=
        if_pos ⟨hlive, hab⟩
      have hr : Ready { s.world with server := s.world.server.close c } (s.nodes n) :=
        hsound.ready hn fun d hd ↦ by cases (close_owner_self howner).symm.trans hd
      refine ⟨.of_step hreap rfl (hpromote hr), .of_step hreap (.inl rfl) ?_⟩
      exact Ready.leads hr |>.mono (fun _ he ↦ .inl he) fun _ ht ↦ ht
    | false =>
      obtain ⟨m, hm⟩ := (h.held c howner).resolve_left (by rw [hab]; exact Bool.false_ne_true)
      constructor
      · cases hstopped : (s.nodes m).stopped with
        | false =>
          have hr : Ready s.world (s.nodes m) := (h.sound m).ready hstopped fun d hd ↦ by
            rw [hm, ← howner, hd]
          exact hr.leads.mono (fun _ he ↦ he) fun _ ht ↦ ⟨m, ht⟩
        | true =>
          have hne : n ≠ m := by
            rintro rfl
            rw [hstopped] at hn
            cases hn
          have hq : Quits s.world (s.nodes m) :=
            ⟨hstopped, holds_iff.mpr ⟨c, hm, howner⟩, (h.ends m).1⟩
          refine (hq.leads hne).trans fun t ⟨hsame, hsettled⟩ ↦ ?_
          rcases hsettled with hfree | hserves
          · exact hpromote (ready_of_free (hsame ▸ hsound) (hsame ▸ hn) hfree)
          · exact .here ⟨m, hserves⟩
      · have hlose : step s (.lose c) = some { s with world := { s.world with
            server := s.world.server.close c
            lost := update s.world.lost c true } } := by
          simp [step, hlive, hab]
        refine .of_step hlose (.inr ⟨c, rfl, rfl⟩) ?_
        have hr : Ready { s.world with
            server := s.world.server.close c
            lost := update s.world.lost c true } (s.nodes n) :=
          hsound.ready hn fun d hd ↦ by cases (close_owner_self howner).symm.trans hd
        exact Ready.leads hr |>.mono (fun _ he ↦ .inl he) fun _ ht ↦ ht

theorem failover_backup : ∃ s, Run (promote 0) s ∧ (s.nodes 1).stopped = false ∧
    Leads step (fun e ↦ e.calm = true) (fun t ↦ ∃ m, serves t.world (t.nodes m) = true) s ∧
    Leads step (fun e ↦ e.calm = true ∨ ∃ c, s.world.server.owner = some c ∧ e = .lose c)
      (fun t ↦ serves t.world (t.nodes 1) = true) s := by
  obtain ⟨s, hs, hrunning⟩ := Option.map_eq_some_iff.mp
    (show (exec step .initial (promote 0)).map (fun s ↦ (s.nodes 1).stopped) = some false by
      decide +kernel)
  exact ⟨s, hs, hrunning, failover hs hrunning⟩

end Failover

end Fireworq.MySQL.Activator
