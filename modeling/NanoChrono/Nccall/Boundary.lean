import NanoChrono.Nccall.Dispatch

/-! # The boundary between the kernel and a caller

`Boundary` says what the dispatcher owes the kernel for one call: the caller's memory is touched
only where the caller has just been found to own it, a service is only reached by a caller entitled
to it, nothing executable is mapped, a call outside the granted groups is refused before anything
happens, a caller is told of its end exactly when it ends, and a number of more than 32 bits is
nobody's number. It is derived from what each part of the dispatcher leaves in its log. -/

namespace NanoChrono.Nccall

open Trace

variable {w : Nat} {σ : Type}

/-! ## What the actions do -/

/-- The caller's memory an action reads or writes. -/
def Action.touches : Action w → Option (Slice w)
  | .console s | .random s _ => some s
  | .store ptr _ => some ⟨ptr, .ofNat w TIMESPEC_SIZE⟩
  | _ => none

/-- The caller is found to own the slice. -/
def Action.approval (s : Slice w) : Action w := .owns s true

/-- The end an action announces. -/
def Action.endsWith : Action w → Option (Ending w)
  | .ended why => some why
  | _ => none

/-- The end a reply brings. -/
def Reply.ending : Reply w → Option (Ending w)
  | .ended why => some why
  | _ => none

/-- The capability group a class-1 call belongs to, if it belongs to one. -/
def posixGroup (n : BitVec 32) : Option (BitVec 32) :=
  if n = Posix.WRITE then some CAP_LOG
  else if n = Posix.CLOCK_GETTIME then some CAP_TIMER
  else if n = Posix.GETRANDOM then some CAP_RNG
  else none

/-- The call asks for the number `n`. -/
def Call.Asks (call : Call w) (n : BitVec 32) : Prop := call.nr.toNat = n.toNat

/-- The log reads and writes the caller's memory only where `owns` has just said yes to exactly
the slice touched. -/
abbrev Approved (log : List (σ × Action w)) : Prop := Cleared Action.touches .approval none log

/-! ## What a class-1 call leaves behind -/

/-- What a class-1 call with the words `a` may do: touch approved memory and map memory that is
not executable. -/
structure Posixly (a : Vector (BitVec w) 6) (log : List (σ × Action w)) : Prop where
  approved : Approved log
  mapped : ∀ t len, (t, .mapAnon len) ∈ log →
    protArg a &&& ~~~(PROT_READ ||| PROT_WRITE) = 0
  serves : ∀ t n args, (t, .service n args) ∉ log
  quiet : log.filterMap (fun e => e.2.endsWith) = []

variable {c : Caller w σ} {a : Vector (BitVec w) 6} {s : σ}

theorem Posixly.nil : Posixly a ([] : List (σ × Action w)) where
  approved := trivial
  mapped _ _ h := absurd h List.not_mem_nil
  serves _ _ _ := List.not_mem_nil
  quiet := rfl

/-- Nothing but the question whether a slice is the caller's. -/
theorem Posixly.asked (t : σ) (r : Slice w) (yes : Bool) : Posixly a [(t, .owns r yes)] where
  approved := by simp [Approved, Action.touches]
  mapped _ _ h := by simp at h
  serves _ _ _ h := by simp at h
  quiet := rfl

/-- An access to the slice that was just found to be the caller's. -/
theorem Posixly.access {t : σ} {r : Slice w} {act : Action w} (h : act.touches = some r) :
    Posixly a [(t, .owns r true), (t, act)] := by
  cases act <;> cases h
  all_goals exact {
    approved := by simp [Approved, Action.touches, Action.approval]
    mapped := fun _ _ h => by simp at h
    serves := fun _ _ _ h => by simp at h
    quiet := rfl }

theorem posixWrite_log : Posixly a (posixWrite c a s).log := by
  unfold posixWrite
  by_cases hfd : fdArg a ≠ 1 ∧ fdArg a ≠ 2
  · rw [if_pos hfd]
    exact .nil
  rw [if_neg hfd, Act.ask_bind]
  by_cases hcap : ¬ Grants (c.caps s) CAP_LOG
  · rw [if_pos hcap]
    exact .nil
  rw [if_neg hcap]
  by_cases hlen : a[2] = 0
  · rw [if_pos hlen]
    exact .nil
  rw [if_neg hlen, Act.inquire_bind_log]
  cases howns : c.owns ⟨a[1], usizeMin a[2] (.ofNat w 4096)⟩ s with
  | false => exact .asked _ _ _
  | true =>
    rw [if_neg (by decide), Act.act_bind_log]
    -- What the console answers only decides the reply.
    cases (c.console ⟨a[1], usizeMin a[2] (.ofNat w 4096)⟩ s).1 <;> exact .access rfl

theorem posixMmap_log : Posixly a (posixMmap c a s).log := by
  unfold posixMmap
  by_cases hlen : a[1] = 0 ∨ a[3].setWidth 32 &&& MAP_FIXED ≠ 0
  · rw [if_pos hlen]
    exact .nil
  rw [if_neg hlen]
  by_cases hfile : a[3].setWidth 32 &&& MAP_ANON = 0 ∨ a[4].setWidth 32 ≠ -1 ∨ a[5] ≠ 0
  · rw [if_pos hfile]
    exact .nil
  rw [if_neg hfile]
  by_cases hshare : a[3].setWidth 32 &&& (MAP_SHARED ||| MAP_PRIVATE) = 0
  · rw [if_pos hshare]
    exact .nil
  rw [if_neg hshare]
  by_cases hexec : protArg a &&& PROT_EXEC ≠ 0
  · rw [if_pos hexec]
    exact .nil
  rw [if_neg hexec]
  by_cases hprot : protArg a &&& ~~~(PROT_READ ||| PROT_WRITE) ≠ 0
  · rw [if_pos hprot]
    exact .nil
  rw [if_neg hprot, Act.act_bind_log]
  have hmapped : Posixly a [(s, (.mapAnon a[1] : Action w))] := {
    approved := by simp [Approved, Action.touches]
    mapped := fun _ _ _ => not_not.1 hprot
    serves := fun _ _ _ h => by simp at h
    quiet := rfl }
  cases (c.mapAnon a[1] s).1 <;> exact hmapped

theorem posixMunmap_log : Posixly a (posixMunmap c a s).log := by
  rw [posixMunmap, Act.act_bind_log]
  have hunmapped : Posixly a [(s, (.unmap a[0] a[1] : Action w))] := {
    approved := by simp [Approved, Action.touches]
    mapped := fun _ _ h => by simp at h
    serves := fun _ _ _ h => by simp at h
    quiet := rfl }
  cases (c.unmap a[0] a[1] s).1 <;> exact hunmapped

theorem posixClockGettime_log : Posixly a (posixClockGettime c a s).log := by
  unfold posixClockGettime
  rw [Act.ask_bind]
  by_cases hcap : ¬ Grants (c.caps s) CAP_TIMER
  · rw [if_pos hcap]
    exact .nil
  rw [if_neg hcap]
  by_cases hclock : a[0].setWidth 32 ≠ CLOCK_MONOTONIC ∧ a[0].setWidth 32 ≠ CLOCK_UPTIME
  · rw [if_pos hclock]
    exact .nil
  rw [if_neg hclock, Act.inquire_bind_log]
  cases howns : c.owns ⟨a[1], .ofNat w TIMESPEC_SIZE⟩ s with
  | false => exact .asked _ _ _
  | true =>
    rw [if_neg (by decide), Act.ask_bind]
    cases c.nowNs s with
    | none => exact .asked _ _ _
    | some ns => exact .access rfl

theorem posixGetrandom_log : Posixly a (posixGetrandom c a s).log := by
  unfold posixGetrandom
  rw [Act.ask_bind]
  by_cases hcap : ¬ Grants (c.caps s) CAP_RNG
  · rw [if_pos hcap]
    exact .nil
  rw [if_neg hcap]
  by_cases hflags :
      a[2].setWidth 32 &&& ~~~(GRND_NONBLOCK ||| GRND_RANDOM ||| GRND_INSECURE) ≠ 0
  · rw [if_pos hflags]
    exact .nil
  rw [if_neg hflags]
  by_cases hlen : usizeMin a[1] (.ofNat w MAX_RANDOM) = 0
  · rw [if_pos hlen]
    exact .nil
  rw [if_neg hlen, Act.inquire_bind_log]
  cases howns : c.owns ⟨a[0], usizeMin a[1] (.ofNat w MAX_RANDOM)⟩ s with
  | false => exact .asked _ _ _
  | true =>
    rw [if_neg (by decide), Act.act_bind_log]
    cases (c.random ⟨a[0], usizeMin a[1] (.ofNat w MAX_RANDOM)⟩ _ s).1 <;> exact .access rfl

/-- No class-1 call does more than that. -/
theorem posixCall_log (n : BitVec 32) : Posixly a (posixCall c n a s).log := by
  unfold posixCall
  split_ifs
  · exact .nil
  · exact posixWrite_log
  · exact posixMmap_log
  · exact posixMunmap_log
  · exact posixClockGettime_log
  · exact posixGetrandom_log
  · exact .nil

/-! ## What a call of any class leaves behind -/

variable {call : Call w}

/-- A class-0 call does nothing, or reaches the service of a caller entitled to it. -/
theorem service_log (c : Caller w σ) (call : Call w) (s : σ) (n : BitVec 32) :
    (service c n call s).log = [] ∨
      c.pinned call.site s = true ∧ Grants (c.caps s) (capability n) ∧
        (service c n call s).log = [(s, .service n call.args)] := by
  unfold service
  rw [Act.ask_bind]
  by_cases hpin : c.pinned call.site s = true
  swap
  · rw [if_pos hpin]
    exact .inl rfl
  rw [if_neg (not_not.2 hpin)]
  by_cases hsmash : n = Nc.STACK_CHK_FAIL
  · rw [if_pos hsmash]
    exact .inl rfl
  rw [if_neg hsmash, Act.ask_bind]
  by_cases hcap : capability n ≠ 0 ∧ ¬ Grants (c.caps s) (capability n)
  · rw [if_pos hcap]
    exact .inl rfl
  rw [if_neg hcap]
  by_cases hexit : n = Nc.EXIT
  · rw [if_pos hexit]
    exact .inl rfl
  rw [if_neg hexit, Act.act_bind_log]
  refine .inr ⟨hpin, ?_, ?_⟩
  · -- A number of no group needs nothing.
    by_cases hzero : capability n = 0
    · rw [hzero]
      exact grants_zero _
    · exact not_not.1 fun h => hcap ⟨hzero, h⟩
  · cases (c.service n call.args s).1 <;> rfl

/-- What the dispatcher may do for a call, its end apart. -/
structure Confined (c : Caller w σ) (call : Call w) (s : σ) (log : List (σ × Action w)) :
    Prop where
  approved : Approved log
  mapped : ∀ t len, (t, .mapAnon len) ∈ log →
    protArg call.args &&& ~~~(PROT_READ ||| PROT_WRITE) = 0
  serves : ∀ t n args, (t, .service n args) ∈ log →
    OnStack (c.stack t) call.sp ∧ c.pinned call.site t = true ∧
      Grants (c.caps t) (capability n) ∧ call.Asks n ∧ classOf n = CLASS_NC
  quiet : log.filterMap (fun e => e.2.endsWith) = []

theorem Posixly.confined {log : List (σ × Action w)} (h : Posixly call.args log) :
    Confined c call s log where
  approved := h.approved
  mapped := h.mapped
  serves t n args hmem := absurd hmem (h.serves t n args)
  quiet := h.quiet

/-- A register of at most 32 bits asks for the number it holds. -/
theorem asks_setWidth (h : ¬ call.nr.toNat > 2 ^ 32 - 1) : call.Asks (call.nr.setWidth 32) := by
  rw [Call.Asks, BitVec.toNat_setWidth, Nat.mod_eq_of_lt (by omega)]

theorem route_log (c : Caller w σ) (call : Call w) (s : σ) :
    Confined c call s (route c call s).log := by
  have hnil : Confined c call s ([] : List (σ × Action w)) := Posixly.nil.confined
  unfold route
  rw [Act.ask_bind]
  by_cases hstack : OnStack (c.stack s) call.sp
  swap
  · rw [if_pos hstack]
    exact hnil
  rw [if_neg (not_not.2 hstack)]
  by_cases hwide : call.nr.toNat > 2 ^ 32 - 1
  · rw [if_pos hwide]
    exact hnil
  rw [if_neg hwide]
  by_cases hnc : classOf (call.nr.setWidth 32) = CLASS_NC
  · rw [if_pos hnc]
    rcases service_log c call s (call.nr.setWidth 32) with hlog | ⟨hpin, hcap, hlog⟩
    · rw [hlog]
      exact hnil
    · rw [hlog]
      refine ⟨by simp [Approved, Action.touches], by simp, ?_, rfl⟩
      intro t n args hmem
      obtain ⟨rfl, rfl, rfl⟩ : t = s ∧ n = call.nr.setWidth 32 ∧ args = call.args := by
        simpa using hmem
      exact ⟨hstack, hpin, hcap, asks_setWidth hwide, hnc⟩
  rw [if_neg hnc]
  by_cases hposix : classOf (call.nr.setWidth 32) = CLASS_POSIX
  · rw [if_pos hposix]
    by_cases hexit : call.nr.setWidth 32 = Posix.EXIT
    · rw [if_pos hexit]
      exact hnil
    rw [if_neg hexit, Act.bind_apply]
    -- The reply is made from the answer and leaves no trace.
    have hlog := (posixCall_log (c := c) (s := s) (a := call.args)
      (call.nr.setWidth 32)).confined (c := c) (s := s)
    cases (posixCall c (call.nr.setWidth 32) call.args s).value <;> simpa using hlog
  rw [if_neg hposix]
  by_cases hdiag : classOf (call.nr.setWidth 32) = CLASS_DIAG
  · rw [if_pos hdiag]
    by_cases hecho : call.nr.setWidth 32 = Diag.ECHO
    · rw [if_pos hecho]
      exact hnil
    · rw [if_neg hecho]
      exact hnil
  rw [if_neg hdiag]
  exact hnil

/-- Only the end of the caller is added to what the routing did. -/
theorem dispatch_log : (dispatch c call s).log = (route c call s).log ++
    (route c call s).value.ending.toList.map fun why => ((route c call s).state, .ended why) := by
  unfold dispatch
  rw [Act.bind_apply]
  cases (route c call s).value <;> rfl

theorem dispatch_value : (dispatch c call s).value = (route c call s).value := by
  unfold dispatch
  rw [Act.bind_apply]
  cases h : (route c call s).value <;> rfl

/-! ## Refusals -/

/-- The descriptor `write` is given is neither 1 nor 2. -/
abbrev OddDescriptor (a : Vector (BitVec w) 6) : Prop :=
  fdArg a ≠ 1 ∧ fdArg a ≠ 2

/-- Without its group a class-1 call is refused before anything happens, unless it is a `write`
whose descriptor is looked at first. -/
theorem posixCall_refuses {n cap : BitVec 32} (hgroup : posixGroup n = some cap)
    (hcap : ¬ Grants (c.caps s) cap) (hfd : n = Posix.WRITE → ¬ OddDescriptor a) :
    posixCall c n a s = ⟨.error ENOTCAPABLE, s, []⟩ := by
  unfold posixGroup at hgroup
  split_ifs at hgroup with hwrite hclock hrandom
  · obtain rfl := Option.some.inj hgroup
    subst hwrite
    have hwrite : posixCall c Posix.WRITE a = posixWrite c a := by
      rw [posixCall, if_neg (by decide), if_pos rfl]
    rw [hwrite, posixWrite, if_neg (hfd rfl), Act.ask_bind, if_pos hcap]
    rfl
  · obtain rfl := Option.some.inj hgroup
    subst hclock
    have hclock : posixCall c Posix.CLOCK_GETTIME a = posixClockGettime c a := by
      rw [posixCall, if_neg (by decide), if_neg (by decide), if_neg (by decide),
        if_neg (by decide), if_pos rfl]
    rw [hclock, posixClockGettime, Act.ask_bind, if_pos hcap]
    rfl
  · obtain rfl := Option.some.inj hgroup
    subst hrandom
    have hrandom : posixCall c Posix.GETRANDOM a = posixGetrandom c a := by
      rw [posixCall, if_neg (by decide), if_neg (by decide), if_neg (by decide),
        if_neg (by decide), if_neg (by decide), if_pos rfl]
    rw [hrandom, posixGetrandom, Act.ask_bind, if_pos hcap]
    rfl

/-- A `write` to an odd descriptor is told so, whatever the caller was granted. -/
theorem posixCall_odd (hfd : OddDescriptor a) :
    posixCall c Posix.WRITE a s = ⟨.error EBADF, s, []⟩ := by
  have hwrite : posixCall c Posix.WRITE a = posixWrite c a := by
    rw [posixCall, if_neg (by decide), if_pos rfl]
  rw [hwrite, posixWrite, if_pos hfd]
  rfl

/-- Every number of a group is a class-1 number other than `exit`. -/
theorem posix_of_group {n cap : BitVec 32} (h : posixGroup n = some cap) :
    classOf n = CLASS_POSIX ∧ n ≠ Posix.EXIT := by
  unfold posixGroup at h
  split_ifs at h with hwrite hclock hrandom
  · exact hwrite ▸ ⟨rfl, by decide⟩
  · exact hclock ▸ ⟨rfl, by decide⟩
  · exact hrandom ▸ ⟨rfl, by decide⟩

/-- A call for a number holds that number in 32 bits. -/
theorem Call.Asks.fits {n : BitVec 32} (h : call.Asks n) :
    ¬ call.nr.toNat > 2 ^ 32 - 1 ∧ call.nr.setWidth 32 = n := by
  have hlt := n.isLt
  refine ⟨by rw [h]; omega, BitVec.eq_of_toNat_eq ?_⟩
  rw [BitVec.toNat_setWidth, h, Nat.mod_eq_of_lt hlt]

/-- On its own stack, a class-1 call of a group that is answered with an error and nothing done is
replied to so. -/
theorem dispatch_err {n cap : BitVec 32} {e : Errno} (hn : call.Asks n)
    (hgroup : posixGroup n = some cap) (hstack : OnStack (c.stack s) call.sp)
    (he : posixCall c n call.args s = ⟨.error e, s, []⟩) :
    dispatch c call s = ⟨.err e, s, []⟩ := by
  obtain ⟨hposix, hexit⟩ := posix_of_group hgroup
  obtain ⟨hwide, rfl⟩ := hn.fits
  have hroute : route c call s = ⟨.err e, s, []⟩ := by
    rw [route, Act.ask_bind, if_neg (not_not.2 hstack), if_neg hwide,
      if_neg (by rw [hposix]; decide), if_pos hposix, if_neg hexit, Act.bind_apply, he]
    rfl
  rw [dispatch, Act.bind_apply, hroute]
  rfl

/-! ## The boundary -/

/-- What the dispatcher owes the kernel for one call. -/
structure Boundary (c : Caller w σ) (call : Call w) (s : σ) : Prop where
  /-- Memory is touched where `owns` has just approved exactly the slice touched. -/
  memory : Approved (dispatch c call s).log
  /-- A service is reached on the caller's stack, from a vouched site, with the capability it
  needs, and under its own number. -/
  services : ∀ t n args, (t, .service n args) ∈ (dispatch c call s).log →
    OnStack (c.stack t) call.sp ∧ c.pinned call.site t = true ∧
      Grants (c.caps t) (capability n) ∧ call.Asks n ∧ classOf n = CLASS_NC
  /-- Memory is mapped for calls that ask for reading and writing at most. -/
  writeXorExec : ∀ t len, (t, .mapAnon len) ∈ (dispatch c call s).log →
    protArg call.args &&& ~~~(PROT_READ ||| PROT_WRITE) = 0
  /-- A class-1 call of a group the caller was not granted is answered so, and nothing is done. -/
  refuses : ∀ n cap, call.Asks n → posixGroup n = some cap → OnStack (c.stack s) call.sp →
    ¬ Grants (c.caps s) cap →
      (dispatch c call s).value = .err ENOTCAPABLE ∧ (dispatch c call).Idle s
  /-- The caller is told why it ends, once, exactly when the reply ends it. -/
  ends : (dispatch c call s).log.filterMap (fun e => e.2.endsWith) =
    (dispatch c call s).value.ending.toList
  /-- A register past 32 bits is answered as no number: the caller is ended, nothing else done. -/
  wide : 2 ^ 32 ≤ call.nr.toNat → ∃ why ∈ (dispatch c call s).value.ending,
    (why = .unknown call.nr ∨ why = .violation .stackPointer) ∧
      (dispatch c call s).log = [(s, .ended why)]

/-- The call is a `write` on the caller's stack, to a descriptor other than 1 and 2, by a caller
that was not granted the log. -/
def Misdirected (c : Caller w σ) (call : Call w) (s : σ) : Prop :=
  call.Asks Posix.WRITE ∧ OnStack (c.stack s) call.sp ∧ ¬ Grants (c.caps s) CAP_LOG ∧
    OddDescriptor call.args

/-- A number past 32 bits ends the caller before anything else is done. -/
theorem route_wide (h : 2 ^ 32 ≤ call.nr.toNat) :
    ∃ why, (why = .unknown call.nr ∨ why = .violation .stackPointer) ∧
      route c call s = ⟨.ended why, s, []⟩ := by
  unfold route
  rw [Act.ask_bind]
  by_cases hstack : OnStack (c.stack s) call.sp
  · rw [if_neg (not_not.2 hstack), if_pos (by omega)]
    exact ⟨_, .inl rfl, rfl⟩
  · rw [if_pos hstack]
    exact ⟨_, .inr rfl, rfl⟩

/-- The boundary holds for every caller and every call but one kind: a `write` to an odd
descriptor without the log's capability is answered for its descriptor. -/
theorem dispatch_boundary_iff (c : Caller w σ) (call : Call w) (s : σ) :
    Boundary c call s ↔ ¬ Misdirected c call s := by
  have hroute := route_log c call s
  constructor
  · rintro hb ⟨hn, hstack, hcap, hfd⟩
    have hgroup : posixGroup Posix.WRITE = some CAP_LOG := rfl
    have hans := dispatch_err hn hgroup hstack (posixCall_odd hfd)
    have href := (hb.refuses _ _ hn hgroup hstack hcap).1
    rw [hans] at href
    exact absurd (Reply.err.inj href) (by decide)
  · intro hok
    constructor
    · rw [dispatch_log]
      cases (route c call s).value.ending with
      | none => simpa using hroute.approved
      | some why => exact hroute.approved.concat rfl
    · intro t n args hmem
      rw [dispatch_log] at hmem
      exact hroute.serves t n args (by simpa using hmem)
    · intro t len hmem
      rw [dispatch_log] at hmem
      exact hroute.mapped t len (by simpa using hmem)
    · intro n cap hn hgroup hstack hcap
      have hans := dispatch_err hn hgroup hstack (posixCall_refuses hgroup hcap ?_)
      · exact ⟨by rw [hans], by rw [Act.Idle, hans]; exact ⟨rfl, rfl⟩⟩
      · rintro rfl hfd
        obtain rfl : CAP_LOG = cap := Option.some.inj hgroup
        exact hok ⟨hn, hstack, hcap, hfd⟩
    · rw [dispatch_log, dispatch_value, List.filterMap_append, hroute.quiet]
      cases (route c call s).value.ending <;> rfl
    · intro hwide
      obtain ⟨why, hwhy, heq⟩ := route_wide (c := c) (s := s) hwide
      refine ⟨why, ?_, hwhy, ?_⟩
      · rw [dispatch_value, heq]
        rfl
      · rw [dispatch_log, heq]
        rfl

/-! ## A misdirected write -/

namespace Bare

/-- A caller that was granted nothing, owns everything and has every service. -/
def bare : Caller 64 Unit where
  caps _ := 0
  owns _ _ := true
  stack _ := none
  pinned _ _ := true
  service _ _ s := (some 0, s)
  nowNs _ := none
  mapAnon _ s := (.error ENOMEM, s)
  unmap _ _ s := (.error EINVAL, s)
  console _ s := (.error EIO, s)
  random _ _ s := (none, s)
  ended _ s := s
  store _ _ s := s

/-- `write(7, 0x100, 1)`. -/
def write : Call 64 := ⟨0x10004, #v[7, 0x100, 1, 0, 0, 0], 0, 0⟩

/-- The caller has no console, and hears about its descriptor instead. -/
theorem write_not_refused :
    ¬ Boundary bare write () ∧ (dispatch bare write ()).value = .err EBADF := by
  refine ⟨fun hb => ?_, by decide⟩
  have href := (hb.refuses Posix.WRITE CAP_LOG rfl rfl (by decide) (by decide)).1
  exact absurd href (by decide)

end Bare

end NanoChrono.Nccall
