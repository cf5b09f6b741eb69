import NanoChrono.Rng.Device

/-! # Reads are whole and seeded

A read of the pool with its jitter source is a read of the pool: `fillFrom_refines`. -/

namespace NanoChrono.Rng

variable {m : Machine} {d : Device} {s : Supply} {mode : Mode}

/-! ## Buffers -/

@[simp] theorem length_wipeBytes (out : Bytes) : (wipeBytes out).length = out.length :=
  List.length_replicate ..

theorem length_write {out bytes : Bytes} {done : Nat} (h : done + bytes.length ≤ out.length) :
    (write out done bytes).length = out.length := by
  simp only [write, List.length_append, List.length_take, List.length_drop]
  omega

theorem wipeBytes_write {out bytes : Bytes} {done : Nat} (h : done + bytes.length ≤ out.length) :
    wipeBytes (write out done bytes) = wipeBytes out := by
  rw [wipeBytes, length_write h, wipeBytes]

/-- Once written, a part of the buffer is not written again. -/
theorem take_write {out bytes : Bytes} {done : Nat} (h : done + bytes.length ≤ out.length) :
    (write out done bytes).take (done + bytes.length) = out.take done ++ bytes := by
  have hlen : (out.take done ++ bytes).length = done + bytes.length := by
    rw [List.length_append, List.length_take, Nat.min_eq_left (by omega)]
  rw [write, ← hlen, List.take_left']
  rfl

/-- The bytes drawn in a trace. -/
@[grind =] def drawn : List Event → Bytes
  | [] => []
  | .drew _ out :: es => out ++ drawn es
  | _ :: es => drawn es

theorem drawn_append (es fs : List Event) : drawn (es ++ fs) = drawn es ++ drawn fs := by
  induction es with
  | nil => rfl
  | cons e es ih => cases e <;> simp only [List.cons_append, drawn, ih, List.append_assoc]

/-! ## A device's pool -/

namespace Pool

variable {p : Pool} {env env' : Nat → Sources} {k left : Nat}

/-- A read looks at the sources of its own turns only. -/
theorem fillFrom_congr (h : ∀ i, k ≤ i → env i = env' i) :
    p.fillFrom m mode env k left = p.fillFrom m mode env' k left := by
  induction left using Nat.strong_induction_on generalizing p k with
  | h left ih =>
    rw [fillFrom, fillFrom.eq_def m mode env']
    split
    · rfl
    next hne =>
    have hlimit : 0 < mode.limit := by cases mode <;> decide
    simp only [h k le_rfl]
    split
    · rfl
    · rw [ih _ (by omega) fun i hi => h i (by omega)]

theorem fillFrom_failed {e : RngError} (hleft : left ≠ 0)
    (h : (p.fillChunk m mode (env k) (min left mode.limit)).result = .error e) :
    p.fillFrom m mode env k left = p.fillChunk m mode (env k) (min left mode.limit) := by
  rw [fillFrom, dif_neg hleft]
  simp only [h]

theorem fillFrom_turn {out : Bytes} (hleft : left ≠ 0)
    (h : (p.fillChunk m mode (env k) (min left mode.limit)).result = .ok out) :
    ∃ requests, p.fillFrom m mode env k left =
      ⟨(((p.fillChunk m mode (env k) (min left mode.limit)).pool.count
          (min left mode.limit)).fillFrom m mode env (k + 1) (left - min left mode.limit)).pool,
        (((p.fillChunk m mode (env k) (min left mode.limit)).pool.count
          (min left mode.limit)).fillFrom m mode env (k + 1) (left - min left mode.limit)).result.map
            (out ++ ·),
        requests⟩ := by
  rw [fillFrom, dif_neg hleft]
  simp only [h]
  exact ⟨_, rfl⟩

end Pool

namespace Device

theorem reseed_eq (d : Device) (s : Supply) :
    d.pool.reseed m (d.sources s) = ((d.reseed m s).device.pool, (d.reseed m s).result) := by
  rw [reseed]
  unfold Pool.reseed
  split <;> rename_i h <;> simp only [h]

theorem reseedIfDue_eq (d : Device) (mode : Mode) (s : Supply) :
    d.pool.reseedIfDue m mode (d.sources s) =
      ((d.reseedIfDue m mode s).device.pool, (d.reseedIfDue m mode s).result) := by
  rw [reseedIfDue, Pool.reseedIfDue]
  split
  · exact reseed_eq d s
  · rfl

theorem fillChunk_failed {e : RngError} {n : Nat}
    (h : (d.reseedIfDue m mode s).result = .error e) :
    d.pool.fillChunk m mode (d.sources s) n =
      ⟨((d.reseedIfDue m mode s).device.record e).pool, .error e, []⟩ := by
  rw [Pool.fillChunk, reseedIfDue_eq, h, record]

theorem fillChunk_drawn {n : Nat} (h : (d.reseedIfDue m mode s).result = .ok ()) :
    (d.pool.fillChunk m mode (d.sources s) n).pool =
        ((d.reseedIfDue m mode s).device.draw m mode n).1.pool ∧
      (d.pool.fillChunk m mode (d.sources s) n).result =
        ((d.reseedIfDue m mode s).device.draw m mode n).2 := by
  rw [Pool.fillChunk, reseedIfDue_eq, h]
  cases mode with
  | true => exact ⟨rfl, rfl⟩
  | fast =>
    obtain hg | ⟨r, hg, -⟩ := Stream.generate_cases m
        ((d.reseedIfDue m .fast s).device.pool.foldIfPending m).stream n <;>
      simp only [draw, hg, and_self]

/-- What is drawn has the length asked for. -/
theorem length_draw {n : Nat} {bytes : Bytes} (h : (d.draw m mode n).2 = .ok bytes) :
    bytes.length = n := by
  cases mode with
  | true =>
    obtain rfl := Except.ok.inj h
    simp only [Vector.length_toList]
  | fast =>
    simp only [draw] at h
    obtain hg | ⟨r, hg, hr, -⟩ := Stream.generate_cases m (d.pool.foldIfPending m).stream n
    · rw [hg] at h
      cases h
    · rw [hg] at h
      obtain rfl := Except.ok.inj h
      rw [Vector.length_toList, hr]

/-- What a read leaves in the caller's buffer, from `done` on: an error and zeros, or the bytes of the
pool's read in place. -/
inductive Leaves (out : Bytes) (done : Nat) (f : Filled) : Except RngError Bytes → Prop where
  | wiped (e : RngError) (hresult : f.result = .error e) (hbuffer : f.buffer = wipeBytes out) :
      Leaves out done f (.error e)
  | written (bytes : Bytes) (hresult : f.result = .ok out.length)
      (hlength : bytes.length = out.length - done) (hbuffer : f.buffer = out.take done ++ bytes)
      (hdrawn : drawn f.events = bytes) : Leaves out done f (.ok bytes)

/-- A turn's bytes are in place when the rest of the read has been. -/
theorem Leaves.write {out bytes : Bytes} {done : Nat} {f g : Filled} {r : Except RngError Bytes}
    (hdone : done + bytes.length ≤ out.length)
    (h : Leaves (Rng.write out done bytes) (done + bytes.length) f r)
    (hresult : g.result = f.result) (hbuffer : g.buffer = f.buffer)
    (hdrawn : drawn g.events = bytes ++ drawn f.events) : Leaves out done g (r.map (bytes ++ ·)) := by
  have hlen : (Rng.write out done bytes).length = out.length := length_write hdone
  cases h with
  | wiped e hr hb => exact .wiped e (hresult.trans hr) (by rw [hbuffer, hb, wipeBytes_write hdone])
  | written more hr hl hb hd =>
    refine .written (bytes ++ more) (by rw [hresult, hr, hlen]) ?_ ?_ (by rw [hdrawn, hd])
    · rw [List.length_append]
      omega
    · rw [hbuffer, hb, take_write hdone, List.append_assoc]

theorem drawn_report (d : Device) (s : Supply) : drawn (d.report s) = [] := by
  rw [report]
  split <;> rfl

/-- No output is drawn while a seed is made. -/
theorem drawn_reseed (d : Device) (s : Supply) : drawn (d.reseed m s).events = [] := by
  rw [reseed]
  split
  · exact drawn_report d s
  · rw [drawn_append, drawn_report]
    rfl

theorem drawn_reseedIfDue : drawn (d.reseedIfDue m mode s).events = [] := by
  rw [reseedIfDue]
  split
  · exact drawn_reseed d s
  · rfl

theorem drawn_start (d : Device) (b : Start) : drawn (d.start m b).events = [] := by
  have hreport : drawn (startReport b) = [] := by
    rw [startReport]
    split <;> rfl
  rw [start]
  split
  · rfl
  · rfl
  · split
    · rfl
    · dsimp only
      split <;> exact (drawn_append _ _).trans (by rw [hreport, drawn_reseed]; rfl)

section Turns

variable {env : Nat → Supply} {out : Bytes} {k len done : Nat} {e : RngError}

theorem fillFrom_end (h : ¬ done < len) :
    fillFrom m mode env d out k len done = ⟨d, out, .ok done, []⟩ := by
  rw [fillFrom, dif_neg h]

/-- No seed, no output. -/
theorem fillFrom_unseeded (h : done < len) (hres : (d.reseedIfDue m mode (env k)).result = .error e) :
    fillFrom m mode env d out k len done =
      ⟨(d.reseedIfDue m mode (env k)).device.record e, wipeBytes out, .error e,
        (d.reseedIfDue m mode (env k)).events⟩ := by
  rw [fillFrom, dif_pos h]
  simp only [hres]

/-- The output stage refuses. -/
theorem fillFrom_refused {d' : Device} (h : done < len)
    (hres : (d.reseedIfDue m mode (env k)).result = .ok ())
    (hdraw : (d.reseedIfDue m mode (env k)).device.draw m mode (min (len - done) mode.limit) =
      (d', .error e)) :
    fillFrom m mode env d out k len done =
      ⟨d', wipeBytes out, .error e, (d.reseedIfDue m mode (env k)).events⟩ := by
  rw [fillFrom, dif_pos h]
  simp only [hres, hdraw]

/-- A turn, and the rest of the read. -/
theorem fillFrom_turn {d' : Device} {bytes : Bytes} (h : done < len)
    (hres : (d.reseedIfDue m mode (env k)).result = .ok ())
    (hdraw : (d.reseedIfDue m mode (env k)).device.draw m mode (min (len - done) mode.limit) =
      (d', .ok bytes)) :
    fillFrom m mode env d out k len done =
      let rest := fillFrom m mode env (d'.count (min (len - done) mode.limit))
        (Rng.write out done bytes) (k + 1) len (done + min (len - done) mode.limit)
      ⟨rest.device, rest.buffer, rest.result,
        (d.reseedIfDue m mode (env k)).events ++ .drew mode bytes :: rest.events⟩ := by
  rw [fillFrom, dif_pos h]
  simp only [hres, hdraw]

end Turns

/-- The turns of a device's read are the turns of its pool's. -/
theorem fillFrom_refines (mode : Mode) (env : Nat → Supply) (d : Device) (out : Bytes) (k done : Nat)
    (hdone : done ≤ out.length) :
    ∃ env' : Nat → Sources,
      (fillFrom m mode env d out k out.length done).device.pool =
        (d.pool.fillFrom m mode env' k (out.length - done)).pool ∧
      Leaves out done (fillFrom m mode env d out k out.length done)
        (d.pool.fillFrom m mode env' k (out.length - done)).result := by
  induction hleft : out.length - done using Nat.strong_induction_on generalizing d out k done with
  | h left ih =>
  by_cases hlt : done < out.length
  · have hlimit : 0 < mode.limit := by cases mode <;> decide
    have hleft' : left ≠ 0 := by omega
    cases hres : (d.reseedIfDue m mode (env k)).result with
    | error e =>
      have hturn := fillChunk_failed (n := min left mode.limit) hres
      refine ⟨fun _ => d.sources (env k), ?_⟩
      rw [fillFrom_unseeded hlt hres, Pool.fillFrom_failed hleft' (by rw [hturn]), hturn]
      exact ⟨rfl, .wiped e rfl rfl⟩
    | ok u =>
      obtain ⟨hpool, hresult⟩ := fillChunk_drawn (n := min left mode.limit) hres
      cases hdraw : (d.reseedIfDue m mode (env k)).device.draw m mode (min left mode.limit) with
      | mk d' r =>
      rw [hdraw] at hpool hresult
      rw [← hleft] at hdraw
      cases r with
      | error e =>
        have hfrom : d.pool.fillFrom m mode (fun _ => d.sources (env k)) k left =
            d.pool.fillChunk m mode (d.sources (env k)) (min left mode.limit) :=
          Pool.fillFrom_failed hleft' hresult
        refine ⟨fun _ => d.sources (env k), ?_⟩
        rw [fillFrom_refused hlt hres hdraw, hfrom, hpool, hresult]
        exact ⟨rfl, .wiped e rfl rfl⟩
      | ok bytes =>
        have hbytes : bytes.length = min (out.length - done) mode.limit := length_draw (by rw [hdraw])
        have hfits : done + bytes.length ≤ out.length := by omega
        have hlen := length_write hfits
        obtain ⟨env', hp, hl⟩ := ih (out.length - (done + bytes.length)) (by omega)
          (d'.count bytes.length) (Rng.write out done bytes) (k + 1) (done + bytes.length)
          (by rw [hlen]; exact hfits) (by rw [hlen])
        -- This turn's sources first, then those the rest of the read finds.
        let both : Nat → Sources := fun i => if i = k then d.sources (env k) else env' i
        have hcongr : ∀ p left, Pool.fillFrom m mode both p (k + 1) left =
            Pool.fillFrom m mode env' p (k + 1) left := fun p left =>
          Pool.fillFrom_congr fun i hi => if_neg (by omega)
        have hboth : both k = d.sources (env k) := if_pos rfl
        obtain ⟨requests, hfrom⟩ : ∃ requests, d.pool.fillFrom m mode both k left = _ :=
          Pool.fillFrom_turn hleft' (by rw [hboth]; exact hresult)
        have hmin : min left mode.limit = bytes.length := by omega
        have hrest : left - bytes.length = out.length - (done + bytes.length) := by omega
        rw [hboth, hpool, hcongr, hmin, hrest] at hfrom
        refine ⟨both, ?_⟩
        rw [hfrom, fillFrom_turn hlt hres hdraw, ← hbytes]
        rw [hlen] at hp hl
        refine ⟨hp, hl.write hfits rfl rfl ?_⟩
        rw [drawn_append, drawn_reseedIfDue]
        rfl
  · have hdone : done = out.length := by omega
    have hleft' : left = 0 := by omega
    refine ⟨fun _ => d.sources (env 0), ?_⟩
    rw [fillFrom_end hlt, hleft', Pool.fillFrom, dif_pos rfl]
    refine ⟨rfl, .written [] (by rw [hdone]) (by rw [List.length_nil]; omega) ?_ rfl⟩
    rw [hdone, List.take_length, List.append_nil]

/-- A read fills the whole buffer with what was drawn, or leaves it zeroed with an error. -/
theorem fill_whole (d : Device) (out : Bytes) (mode : Mode) (b : Start) (env : Nat → Supply) :
    (∃ e, (d.fill m out mode b env).result = .error e ∧
      (d.fill m out mode b env).buffer = List.replicate out.length 0) ∨
    ((d.fill m out mode b env).result = .ok out.length ∧
      (d.fill m out mode b env).buffer.length = out.length ∧
      (d.fill m out mode b env).buffer = drawn (d.fill m out mode b env).events) := by
  rw [fill]
  split
  · next hempty =>
    obtain rfl := List.isEmpty_iff.1 hempty
    exact .inr ⟨rfl, rfl, rfl⟩
  dsimp only
  split
  · exact .inl ⟨_, rfl, rfl⟩
  · obtain ⟨env', -, hleaves⟩ := fillFrom_refines (m := m) mode env (d.start m b).device out
      0 0 (Nat.zero_le _)
    generalize Pool.Read.result _ = r at hleaves
    cases hleaves with
    | wiped e hresult hbuffer => exact .inl ⟨e, hresult, hbuffer⟩
    | written bytes hresult hlength hbuffer hdrawn =>
      rw [List.take_zero, List.nil_append] at hbuffer
      refine .inr ⟨hresult, by rw [hbuffer, hlength, Nat.sub_zero], ?_⟩
      rw [drawn_append, drawn_start, hdrawn, hbuffer]
      rfl

end Device

end NanoChrono.Rng
