import CIS415.DiskDriver
import CIS415.Lib.Ownership

/-!
# Who owns a voucher

A voucher is in the pool, with a submitting call, or out for one request. The request is with the
application, or with the call that redeems it.
-/

namespace CIS415.DiskDriver

open Ownership

variable {T D : Type}

inductive Place (T : Type) where
  | pool
  | submitter (t : T)
  | request (r : Request) (redeemer : Option T)

/-- The voucher is back in the pool. -/
def RedeemPhase.returned : RedeemPhase D → Bool
  | .unlock => true
  | .ret => true
  | _ => false

def AppPC.voucher : AppPC D → Option VoucherPtr
  | .submit _ _ _ _ v => some v
  | .giveBack v => some v
  | _ => none

/-- The request whose voucher a redeeming call has not yet returned. -/
def AppPC.request : AppPC D → Option Request
  | .redeem ph r _ => if ph.returned then none else some r
  | _ => none

def Holds (s : State T D) : Place T → VoucherPtr → Prop
  | .pool, v => v ∈ s.vouchBB
  | .submitter t, v => (s.app t).voucher = some v
  | .request r none, v => r.v = v ∧ r ∈ s.issued
  | .request r (some t), v => r.v = v ∧ (s.app t).request = some r

variable {s s' : State T D} {place : VoucherPtr → Place T}

theorem placed_init : Placed (Holds (initDiskDriver : State T D)) fun _ => .pool := by
  intro p v
  rcases p with _ | t | ⟨r, _ | t⟩ <;>
    simp [Holds, initDiskDriver, AppPC.voucher, AppPC.request]

theorem holds_congr (hbb : s'.vouchBB = s.vouchBB) (hiss : s'.issued = s.issued)
    (hv : ∀ t, (s'.app t).voucher = (s.app t).voucher)
    (hr : ∀ t, (s'.app t).request = (s.app t).request) (p : Place T) (v : VoucherPtr) :
    Holds s' p v ↔ Holds s p v := by
  rcases p with _ | t | ⟨r, _ | t⟩ <;> simp only [Holds, hbb, hiss, hv, hr]

/-- What holds of a request whose voucher is out. -/
theorem place_request (h : Placed (Holds s) place) {v : VoucherPtr} {r : Request} {o : Option T}
    (hp : place v = .request r o) : r.v = v := by
  have hv := (h _ v).mpr hp
  cases o with
  | none => exact hv.1
  | some t => exact hv.1

variable [DecidableEq T] {t : T} {v : VoucherPtr} {r : Request} {pc : AppPC D}

theorem placed_take (h : Placed (Holds s) place) (hnd : s.vouchBB.Nodup) {rest : List VoucherPtr}
    (hbb : s.vouchBB = v :: rest) (hv : (s.app t).voucher = none) (hr : (s.app t).request = none)
    (hpc : pc.voucher = some v) (hpr : pc.request = none) :
    Placed (Holds { s with vouchBB := rest, app := Function.update s.app t pc })
      (Function.update place v (.submitter t)) := by
  have hpool : place v = .pool := (h .pool v).mp (by simp [Holds, hbb])
  rw [hbb, List.nodup_cons] at hnd
  apply h.move
  · intro p
    rcases p with _ | t' | ⟨r, _ | t'⟩
    · simp [Holds, hnd.1]
    · have hother := h (.submitter t') v
      by_cases htt : t' = t
      · simp [Holds, htt, hpc]
      · simpa [Holds, htt, hpool] using hother
    · simpa [Holds, hpool] using h (.request r none) v
    · have hother := h (.request r (some t')) v
      by_cases htt : t' = t
      · simp [Holds, htt, hpr]
      · simpa [Holds, htt, hpool] using hother
  · intro p w hw
    rcases p with _ | t' | ⟨r, _ | t'⟩
    · simp [Holds, hbb, hw]
    · by_cases htt : t' = t
      · simp [Holds, htt, hpc, hv, Ne.symm hw]
      · simp [Holds, htt]
    · exact Iff.rfl
    · by_cases htt : t' = t
      · simp [Holds, htt, hpr, hr]
      · simp [Holds, htt]

/-- A submitting call hands its voucher on to the worker and the application. -/
theorem placed_enqueue (h : Placed (Holds s) place) (hv : (s.app t).voucher = some r.v)
    (hr : (s.app t).request = none) (hpc : pc.voucher = none) (hpr : pc.request = none) :
    Placed (Holds { s with issued := s.issued ++ [r], app := Function.update s.app t pc })
      (Function.update place r.v (.request r none)) := by
  have hsub : place r.v = .submitter t := (h (.submitter t) r.v).mp hv
  apply h.move
  · intro p
    rcases p with _ | t' | ⟨r', _ | t'⟩
    · simpa [Holds, hsub] using h .pool r.v
    · have hother := h (.submitter t') r.v
      by_cases htt : t' = t
      · simp [Holds, htt, hpc]
      · simpa [Holds, htt, hsub, Ne.symm htt] using hother
    · have hother := h (.request r' none) r.v
      simp only [Holds, hsub, reduceCtorEq, iff_false] at hother
      simp only [Holds, List.mem_append, List.mem_singleton, Place.request.injEq, and_true]
      constructor
      · rintro ⟨hv, hin | heq⟩
        · exact absurd ⟨hv, hin⟩ hother
        · exact heq
      · rintro rfl
        exact ⟨rfl, Or.inr rfl⟩
    · have hother := h (.request r' (some t')) r.v
      by_cases htt : t' = t
      · simp [Holds, htt, hpr]
      · simpa [Holds, htt, hsub] using hother
  · intro p w hw
    rcases p with _ | t' | ⟨r', _ | t'⟩
    · exact Iff.rfl
    · by_cases htt : t' = t
      · simp [Holds, htt, hpc, hv, Ne.symm hw]
      · simp [Holds, htt]
    · have hne : r'.v = w → r' ≠ r := by
        rintro hrv rfl
        exact hw hrv.symm
      simp only [Holds, List.mem_append, List.mem_singleton]
      constructor
      · rintro ⟨hv, hin | heq⟩
        · exact ⟨hv, hin⟩
        · exact absurd heq (hne hv)
      · rintro ⟨hv, hin⟩
        exact ⟨hv, Or.inl hin⟩
    · by_cases htt : t' = t
      · simp [Holds, htt, hpr, hr]
      · simp [Holds, htt]

theorem placed_redeem (h : Placed (Holds s) place) (hnd : s.issued.Nodup) (hin : r ∈ s.issued)
    (hv : (s.app t).voucher = none) (hr : (s.app t).request = none) (hpc : pc.voucher = none)
    (hpr : pc.request = some r) :
    Placed (Holds { s with issued := s.issued.erase r, app := Function.update s.app t pc })
      (Function.update place r.v (.request r (some t))) := by
  have hout : place r.v = .request r none := (h (.request r none) r.v).mp ⟨rfl, hin⟩
  apply h.move
  · intro p
    rcases p with _ | t' | ⟨r', _ | t'⟩
    · simpa [Holds, hout] using h .pool r.v
    · have hother := h (.submitter t') r.v
      by_cases htt : t' = t
      · simp [Holds, htt, hpc]
      · simpa [Holds, htt, hout] using hother
    · have hother := h (.request r' none) r.v
      simp only [Holds, hout, Place.request.injEq, and_true] at hother
      simp only [Holds, Place.request.injEq, reduceCtorEq, and_false, iff_false, hnd.mem_erase_iff]
      rintro ⟨hv, hne, hin⟩
      exact hne (hother.mp ⟨hv, hin⟩).symm
    · have hother := h (.request r' (some t')) r.v
      by_cases htt : t' = t
      · subst htt
        simp only [Holds, Function.update_self, hpr, Option.some.injEq, Place.request.injEq, and_true]
        constructor
        · rintro ⟨-, heq⟩
          exact heq.symm
        · rintro rfl
          exact ⟨rfl, rfl⟩
      · simpa [Holds, htt, hout] using hother
  · intro p w hw
    rcases p with _ | t' | ⟨r', _ | t'⟩
    · exact Iff.rfl
    · by_cases htt : t' = t
      · simp [Holds, htt, hpc, hv]
      · simp [Holds, htt]
    · have hne : r'.v = w → r' ≠ r := by
        rintro hrv rfl
        exact hw hrv.symm
      simp only [Holds, hnd.mem_erase_iff]
      constructor
      · rintro ⟨hv, -, hin⟩
        exact ⟨hv, hin⟩
      · rintro ⟨hv, hin⟩
        exact ⟨hv, hne hv, hin⟩
    · have hne : r'.v = w → r ≠ r' := by
        rintro hrv rfl
        exact hw hrv.symm
      by_cases htt : t' = t
      · subst htt
        simp only [Holds, Function.update_self, hpr, hr, Option.some.injEq, reduceCtorEq, and_false,
          iff_false]
        rintro ⟨hv, heq⟩
        exact hne hv heq
      · simp [Holds, htt]

theorem placed_giveBack (h : Placed (Holds s) place) (hv : (s.app t).voucher = none)
    (hr : (s.app t).request = some r) (hpc : pc.voucher = none) (hpr : pc.request = none) :
    Placed (Holds { s with vouchBB := s.vouchBB ++ [r.v], app := Function.update s.app t pc })
      (Function.update place r.v .pool) := by
  have hout : place r.v = .request r (some t) :=
    (h (.request r (some t)) r.v).mp ⟨rfl, hr⟩
  apply h.move
  · intro p
    rcases p with _ | t' | ⟨r', _ | t'⟩
    · simp [Holds]
    · have hother := h (.submitter t') r.v
      by_cases htt : t' = t
      · simp [Holds, htt, hpc]
      · simpa [Holds, htt, hout] using hother
    · simpa [Holds, hout] using h (.request r' none) r.v
    · have hother := h (.request r' (some t')) r.v
      by_cases htt : t' = t
      · simp [Holds, htt, hpr]
      · simpa [Holds, htt, hout, Ne.symm htt] using hother
  · intro p w hw
    rcases p with _ | t' | ⟨r', _ | t'⟩
    · simp [Holds, hw]
    · by_cases htt : t' = t
      · simp [Holds, htt, hpc, hv]
      · simp [Holds, htt]
    · exact Iff.rfl
    · by_cases htt : t' = t
      · subst htt
        simp only [Holds, Function.update_self, hpr, hr, Option.some.injEq, reduceCtorEq, and_false,
          false_iff]
        rintro ⟨hrv, rfl⟩
        exact hw hrv.symm
      · simp [Holds, htt]

end CIS415.DiskDriver
