import OsHonor.Fs.Cache.Bitmap
import OsHonor.Fs.Cache.Refines
import OsHonor.Fs.Inodes.Reading

/-! # The inode layer over the block cache

The calls of the inode layer are the calls of the block cache, with `cache_alloc` and `cache_free` as
programs over the other ones (`overCache`). So the inode layer runs on the cache of `fs/cache.c`
(`onCache`), and on the array (`onArray`) and the volume (`onVolume`) that say what the cache means to
its client. What runs on the array runs on the cache with the same results (`onCache_of_onArray`).

A run of calls does not give out a block below `m` if all of these are marked as used at its start, if it
frees none of them, and if it stores into the bitmap only by `cache_alloc` and `cache_free`
(`allocations_ge`). -/

namespace OsHonor.Fs.Inodes.OverCache

open Option List Base.Programs BlockDevice Code Reading
open Cache.Blocks Cache.Machine Cache.Client Cache.Volume
open Cache.Bitmap (bitmapBlock marked marked_takeBlock marked_freeBlock cacheAlloc cacheFree
  cacheAlloc_cur cacheFree_cur)
open Cache.Refines (Sim sim_call store)

variable {sb : SuperBlock} {σ τ α : Type}

/-- The calls of the inode layer on a block cache, where `rm` reads `ctx->rm`. The console is not part of
it. -/
def overCache (sb : SuperBlock) (rm : σ → ℕ) (h : Handler σ Call Call.Resp) : Handler σ Op Op.Resp :=
  fun s c =>
  match c with
  | .beginOp => h s .beginOp
  | .endOp => h s .endOp
  | .acquire n => h s (.acquire n)
  | .modify n f => h s (.modify n f)
  | .sync n => h s (.sync n)
  | .release n => h s (.release n)
  | .alloc => (cacheAlloc sb (rm s)).run h s
  | .free n => (cacheFree sb n).run h s
  | .consoleRead _ | .consoleWrite _ => none

theorem overCache_sim {h : Handler σ Call Call.Resp} {h' : Handler τ Call Call.Resp} {rm : σ → ℕ}
    {rm' : τ → ℕ} {R : σ → τ → Prop}
    (hcall : ∀ s t c r t', R s t → h' t c = some (r, t') → ∃ s', h s c = some (r, s') ∧ R s' t')
    (hrm : ∀ s t, R s t → rm s = rm' t) {p : FsProg α} {a : α} {s : σ} {t t' : τ} (hrel : R s t)
    (hrun : p.run (overCache sb rm' h') t = some (a, t')) :
    ∃ s', p.run (overCache sb rm h) s = some (a, s') ∧ R s' t' := by
  refine Prog.run_sim (fun s t c r t' hrel hc => ?_) hrel hrun
  cases c with
  | beginOp | endOp | acquire _ | modify _ _ | sync _ | release _ => exact hcall _ _ _ _ _ hrel hc
  | alloc =>
    show ∃ s', (cacheAlloc sb (rm s)).run h s = some (r, s') ∧ _
    rw [hrm s t hrel]
    exact Prog.run_sim hcall hrel hc
  | free n => exact Prog.run_sim hcall hrel hc
  | consoleRead _ | consoleWrite _ => simp [overCache] at hc

/-! ### On the cache, on the array, on the volume -/

/-- **The inode layer on the cache** of `fs/cache.c`. -/
def onCache (sb : SuperBlock) (al : Alloc) : Handler (State Unit) Op Op.Resp :=
  overCache sb (fun s => (s.thread ()).ctx.getD 0) (cacheCall sb al)

def onArray (sb : SuperBlock) : Handler Arr Op Op.Resp :=
  overCache sb (fun x => (x.op.map fun l => opMaxNumBlocks - l.length).getD 0) (arrCall sb)

def onVolume (sb : SuperBlock) : Handler Vol Op Op.Resp := overCache sb Vol.rm (volCall sb)

variable {p : FsProg α} {a : α} {x x' : Vol}

/-- **What runs on the array runs on the cache.** -/
theorem onCache_of_onArray (al : Alloc) {s : State Unit} {x x' : Arr}
    (hcap : opMaxNumBlocks < sb.numLogBlocks) (h : Sim sb s x)
    (hrun : p.run (onArray sb) x = some (a, x')) :
    ∃ s', p.run (onCache sb al) s = some (a, s') ∧ Sim sb s' x' :=
  overCache_sim (R := Sim sb) (fun _ _ _ _ _ hr hc => sim_call hcap hr hc) (fun s x hr => by rw [hr.ctx]) h hrun

theorem onVolume_of_onArray {y y' : Arr} (h : Shows x y)
    (hrun : p.run (onArray sb) y = some (a, y')) :
    ∃ x', p.run (onVolume sb) x = some (a, x') ∧ Shows x' y' :=
  overCache_sim (R := Shows) (fun _ _ _ _ _ hr hc => volume_of_array hr hc)
    (fun x y hr => by unfold Vol.rm; rw [hr.op]) h hrun

theorem run_onArray_of_peeks {S : Set ℕ} {b : Disk} {x : Arr}
    (hp : Peeks S b p a) (hS : ∀ n ∈ S, n ∈ home sb ∧ n < 2 ^ 64 ∧ x.cur n = b n) (hheld : x.held = [])
    (hdirty : x.dirty = []) : p.run (onArray sb) x = some (a, x) := by
  obtain ⟨cur, held, dirty, op⟩ := x
  obtain rfl : held = [] := hheld
  obtain rfl : dirty = [] := hdirty
  have hpeek : ∀ y, y = ⟨cur, [], [], op⟩ → ∀ n ∈ S, ∃ y₁ y₂, onArray sb y (.acquire n) = some (b n, y₁) ∧
      onArray sb y₁ (.release n) = some ((), y₂) ∧ y₂ = ⟨cur, [], [], op⟩ := by
    intro y hy n hn
    obtain ⟨hhome, hlt, hb⟩ := hS n hn
    change cur n = b n at hb
    rw [hy, ← hb]
    refine ⟨⟨cur, [n], [], op⟩, _, if_pos ⟨hhome, hlt, not_mem_nil⟩, ?_, rfl⟩
    show arrCall sb _ (.release n) = _
    simp [arrCall]
    rfl
  obtain ⟨x', hrun, rfl⟩ := hp.run hpeek rfl
  exact hrun

/-! ### Allocated blocks -/

/-- The blocks below `m` are marked as used. -/
def Reserved (sb : SuperBlock) (m : ℕ) (d : Disk) : Prop := ∀ n < m, marked sb d n = true

/-- The call does not free a block below `m`, and it does not store into the bitmap by itself. -/
def Spares (sb : SuperBlock) (m : ℕ) : Op → Prop
  | .modify n _ => ∀ k < m, bitmapBlock sb k ≠ n
  | .free n => m ≤ n
  | _ => True

def given : (c : Op) → c.Resp → List ℕ
  | .alloc, n => [n]
  | _, _ => []

def allocations : List Op → FsProg (List ℕ)
  | [] => pure []
  | c :: cs => do
    let r ← Prog.perform c
    let ns ← allocations cs
    pure (given c r ++ ns)

variable {m : ℕ}

theorem volCall_cur {c : Call} {r : c.Resp} (h : volCall sb x c = some (r, x')) :
    x'.cur = store x.cur c := by
  cases c with
  | beginOp | acquire _ | release _ | modify _ _ =>
    simp only [volCall] at h
    split_ifs at h
    obtain ⟨⟩ := h
    rfl
  | endOp =>
    simp only [volCall] at h
    split at h
    · simp at h
    · split_ifs at h
      obtain ⟨⟩ := h
      rfl
  | sync n =>
    simp only [volCall] at h
    split at h
    · simp at h
    · split_ifs at h
      obtain ⟨l, -, he⟩ := map_eq_some_iff.mp h
      obtain ⟨-, rfl⟩ := Prod.mk.inj he
      rfl

theorem reserved_call {c : Op} {r : c.Resp} (hm : ∀ k < m, bitmapBlock sb k < m)
    (h : Reserved sb m x.cur) (hs : Spares sb m c) (hc : onVolume sb x c = some (r, x')) :
    Reserved sb m x'.cur ∧ ∀ n ∈ given c r, m ≤ n := by
  cases c with
  | beginOp | endOp | acquire _ | sync _ | release _ =>
    dsimp only [onVolume, overCache] at hc
    rw [volCall_cur hc]
    exact ⟨h, fun n hn => absurd hn not_mem_nil⟩
  | modify n f =>
    dsimp only [onVolume, overCache] at hc
    rw [volCall_cur hc]
    refine ⟨fun k hk => ?_, fun n hn => absurd hn not_mem_nil⟩
    rw [← h k hk]
    unfold marked store
    dsimp only
    rw [Function.update_of_ne (hs k hk)]
  | alloc =>
    obtain ⟨hfirst, hcur⟩ := cacheAlloc_cur hc
    have hge : m ≤ r := by
      by_contra hlt
      have hfree := hfirst.free
      rw [h r (not_le.mp hlt)] at hfree
      exact absurd hfree (by simp)
    refine ⟨fun k hk => ?_, fun n hn => by rw [mem_singleton.mp hn]; exact hge⟩
    rw [hcur, marked_takeBlock (ne_of_lt (lt_of_lt_of_le (hm k hk) hge)), h k hk, Bool.or_true]
  | free n =>
    have hcur := cacheFree_cur hc
    refine ⟨fun k hk => ?_, fun n hn => absurd hn not_mem_nil⟩
    rw [hcur, marked_freeBlock (ne_of_lt (lt_of_lt_of_le hk hs))]
    exact h k hk
  | consoleRead _ | consoleWrite _ => simp [onVolume, overCache] at hc

/-- **No run of calls gives out a reserved block.** -/
theorem allocations_ge {cs : List Op} {ns : List ℕ} (hm : ∀ k < m, bitmapBlock sb k < m)
    (h : Reserved sb m x.cur) (hs : ∀ c ∈ cs, Spares sb m c)
    (hrun : (allocations cs).run (onVolume sb) x = some (ns, x')) : ∀ n ∈ ns, m ≤ n := by
  induction cs generalizing x ns with
  | nil =>
    obtain ⟨rfl, -⟩ := Prod.mk.inj (some.inj hrun)
    exact fun n hn => absurd hn not_mem_nil
  | cons c cs ih =>
    simp only [allocations, Prog.run_bind, Prog.run_perform, bind_eq_some_iff, Prog.run_pure] at hrun
    obtain ⟨⟨r, x₁⟩, hc, ⟨ns', x₂⟩, hrest, he⟩ := hrun
    obtain ⟨rfl, rfl⟩ := Prod.mk.inj (some.inj he)
    obtain ⟨h₁, hgiven⟩ := reserved_call hm h (hs c mem_cons_self) hc
    intro n hn
    rcases mem_append.mp hn with hn | hn
    · exact hgiven n hn
    · exact ih h₁ (fun c hc => hs c (mem_cons_of_mem _ hc)) hrest n hn

end OsHonor.Fs.Inodes.OverCache
