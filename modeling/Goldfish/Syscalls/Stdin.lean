import Goldfish.Syscalls.Stubs

/-!
# Standard input as a stream

A program that reads its standard input with any sequence of `_read` calls
gets the bytes of the line, in order, each one once. A call is logged with
the queue its last poll saw and the memory before and after it.
-/

namespace Goldfish.Syscalls

open Serial

structure Call where
  ptr : U32
  len : U32
  deriving DecidableEq

structure Read where
  call : Call
  value : U32
  polled : ℕ
  before : Mem
  after : Mem

/-- A sequence of calls that all return, with `fuel` polls for each. -/
def reads (fuel : ℕ) : List Call → World → Option (List Read × World)
  | [], w => some ([], w)
  | c :: cs, w =>
      (poll fuel w).bind fun (_, seen) =>
        (read fuel stdinFileno c.ptr c.len w).bind fun (value, t) =>
          (reads fuel cs t).map fun (rs, u) =>
            (⟨c, value, seen.tty.fifo.bytes.length, w.mem, t.mem⟩ :: rs, u)

def Read.bytes (r : Read) : List U8 := Memory.load r.after r.call.ptr r.value.toNat

/-- A call returns as many bytes as its buffer holds and its last poll saw,
and stores no other byte. -/
structure Read.Exact (r : Read) : Prop where
  value : r.value.toInt = min r.call.len.toInt r.polled
  rest : ∀ a, r.value.toNat ≤ (a - r.call.ptr).toNat → r.after a = r.before a

theorem readAfter_spec (ptr : U32) {w u : World} {len len1 : U32} (hlen : 0 ≤ len.toInt)
    (h : Polled w len1 u) :
    ∃ bs, (bs.length : ℤ) = min len.toInt len1.toInt ∧ bs.length < 2 ^ 31 ∧
      Takes w (readAfter stdinFileno ptr len len1 u).2 bs ∧
      (readAfter stdinFileno ptr len len1 u).1 = BitVec.ofNat 32 bs.length ∧
      (readAfter stdinFileno ptr len len1 u).2.mem = Memory.store w.mem ptr bs := by
  have hpos := h.positive
  have hbound := BitVec.two_mul_toInt_lt (x := len1)
  have hlen1 := h.toInt_eq
  have hne : len1 ≠ 0 := by
    rintro rfl
    exact absurd hpos (by decide)
  obtain ⟨n, hn⟩ : ∃ n, n = (if len1.toInt > len.toInt then len else len1).toInt.toNat :=
    ⟨_, rfl⟩
  have hmin : (n : ℤ) = min len.toInt len1.toInt := by
    rw [hn]
    split <;> omega
  have hqueue : n ≤ u.tty.fifo.bytes.length := by omega
  have hafter : readAfter stdinFileno ptr len len1 u = getAll n ptr 0 u := by
    rw [readAfter, if_pos hne, hn]
    rfl
  obtain ⟨bs, hbs, htakes, hnum, hstore⟩ := getAll_spec n ptr 0 u hqueue
  rw [hafter]
  refine ⟨bs, by rw [hbs, hmin], by omega, h.takes.after htakes, ?_, ?_⟩
  · rw [hnum, hbs]
    exact BitVec.zero_add _
  · rw [hstore, h.mem]

theorem read_exact {fuel : ℕ} {w seen t : World} {c : Call} {len1 value : U32}
    (hlen : 0 ≤ c.len.toInt) (hpoll : poll fuel w = some (len1, seen))
    (hread : read fuel stdinFileno c.ptr c.len w = some (value, t)) :
    let r : Read := ⟨c, value, seen.tty.fifo.bytes.length, w.mem, t.mem⟩
    Takes w t r.bytes ∧ r.Exact := by
  have hpolled := poll_polled hpoll
  obtain ⟨bs, hmin, hsmall, htakes, hvalue, hstore⟩ := readAfter_spec c.ptr hlen hpolled
  have hafter : readAfter stdinFileno c.ptr c.len len1 seen = (value, t) := by
    rw [read, hpoll] at hread
    exact Option.some.inj hread
  rw [hafter] at htakes hvalue hstore
  dsimp only at htakes hvalue hstore
  have hnat : value.toNat = bs.length := by
    rw [hvalue, BitVec.toNat_ofNat, Nat.mod_eq_of_lt (by omega)]
  intro r
  have hbytes : r.bytes = bs := by
    change Memory.load t.mem c.ptr value.toNat = bs
    rw [hstore, hnat, Memory.load_store _ _ (by omega)]
  refine ⟨hbytes ▸ htakes, ?_, ?_⟩
  · change value.toInt = min c.len.toInt seen.tty.fifo.bytes.length
    rw [← hpolled.toInt_eq, ← hmin, ← hnat]
    exact BitVec.toInt_eq_toNat_of_lt (by omega)
  · intro a ha
    change t.mem a = w.mem a
    rw [hstore]
    exact Memory.store_outside _ (hnat ▸ ha)

theorem reads_spec {fuel : ℕ} {calls : List Call} {w t : World} {rs : List Read}
    (hlen : ∀ c ∈ calls, 0 ≤ c.len.toInt) (h : reads fuel calls w = some (rs, t)) :
    Takes w t (rs.map Read.bytes).flatten ∧ rs.map Read.call = calls ∧ ∀ r ∈ rs, r.Exact := by
  induction calls generalizing w rs with
  | nil =>
      cases h
      exact ⟨Takes.refl _, rfl, nofun⟩
  | cons c cs ih =>
      simp only [reads, Option.bind_eq_some_iff, Option.map_eq_some_iff] at h
      obtain ⟨⟨len1, seen⟩, hpoll, ⟨value, u⟩, hread, ⟨rs', t'⟩, hrest, heq⟩ := h
      cases heq
      obtain ⟨hc, hcs⟩ := List.forall_mem_cons.mp hlen
      obtain ⟨htakes, hexact⟩ := read_exact hc hpoll hread
      obtain ⟨htakes', hcalls, hexacts⟩ := ih hcs hrest
      refine ⟨htakes.trans htakes', ?_, List.forall_mem_cons.mpr ⟨hexact, hexacts⟩⟩
      rw [List.map_cons, hcalls]

/-- The bytes returned and the bytes queued are the bytes that arrived. -/
theorem reads_stream (fuel : ℕ) (calls : List Call) (w t : World) (rs : List Read)
    (hw : w.arrived = w.tty.fifo.bytes) (hlen : ∀ c ∈ calls, 0 ≤ c.len.toInt)
    (h : reads fuel calls w = some (rs, t)) :
    (rs.map Read.bytes).flatten ++ t.tty.fifo.bytes = t.arrived ∧
      rs.map Read.call = calls ∧ ∀ r ∈ rs, r.Exact := by
  obtain ⟨⟨new, hfifo, harrived⟩, hcalls, hexact⟩ := reads_spec hlen h
  refine ⟨?_, hcalls, hexact⟩
  rw [harrived, hw, hfifo]

def threeBytes : World := .started [0xff#8, 0x00#8, 0x61#8] fun n => n % 2

def twoCalls : List Call := [⟨0x100#32, 1⟩, ⟨0x200#32, 8⟩]

theorem reads_stream_twoCalls : ∃ rs t, reads 4 twoCalls threeBytes = some (rs, t) ∧
    (rs.map Read.bytes).flatten ++ t.tty.fifo.bytes = t.arrived ∧
      rs.map Read.call = twoCalls ∧ ∀ r ∈ rs, r.Exact :=
  ⟨_, _, rfl, reads_stream 4 twoCalls threeBytes _ _ rfl (by decide) rfl⟩

end Goldfish.Syscalls
