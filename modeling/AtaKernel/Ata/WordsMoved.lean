import AtaKernel.Ata.WriteCompletion
import AtaKernel.Ata.DataPhase

/-! Which words a transfer has moved when it returns. A poll that fails ends the call
before its sector; the words of the sectors before it have gone through the data port,
each from its place in the buffer or to it, and nothing else has. -/
namespace AtaKernel.Ata
open ByteMemory PortIo

/-- The word that an access took from a port. -/
def wordIn (port : UInt16) : Access → Option UInt16
  | .inw p value => if p = port then some value else none
  | _ => none

/-- The word that an access sent to a port. -/
def wordOut (port : UInt16) : Access → Option UInt16
  | .outw p value => if p = port then some value else none
  | _ => none

variable {σ α β : Type} {bus : Bus σ} {fuel k n : Nat} {w w' v v' : World σ} {call : Call}
  {port p : UInt16} {ins outs : List UInt16} {x : Io σ α} {f : α → Io σ β}

/-! ## The words that cross the port -/

/-- Between two worlds the port delivered the words `ins` and took the words `outs`, in this order. -/
def Exchanges (port : UInt16) (w w' : World σ) (ins outs : List UInt16) : Prop :=
  ∃ made, w'.trace = made ++ w.trace ∧ made.reverse.filterMap (wordIn port) = ins ∧
    made.reverse.filterMap (wordOut port) = outs

namespace Exchanges

theorem refl (port : UInt16) (w : World σ) : Exchanges port w w [] [] := ⟨[], rfl, rfl, rfl⟩

theorem trans {ins' outs' : List UInt16} (first : Exchanges port w v ins outs)
    (second : Exchanges port v v' ins' outs') : Exchanges port w v' (ins ++ ins') (outs ++ outs') := by
  obtain ⟨made, trace, rfl, rfl⟩ := first
  obtain ⟨later, trace', rfl, rfl⟩ := second
  refine ⟨later ++ made, ?_, ?_, ?_⟩
  · rw [trace', trace, List.append_assoc]
  · rw [List.reverse_append, List.filterMap_append]
  · rw [List.reverse_append, List.filterMap_append]

/-- One access. -/
theorem one {access : Access} (next : w'.trace = access :: w.trace) :
    Exchanges port w w' (wordIn port access).toList (wordOut port access).toList := by
  refine ⟨[access], next, ?_, ?_⟩
  · rw [List.reverse_singleton, List.filterMap_cons]
    cases wordIn port access <;> rfl
  · rw [List.reverse_singleton, List.filterMap_cons]
    cases wordOut port access <;> rfl

theorem taken {value : UInt16} (next : w'.trace = .inw port value :: w.trace) :
    Exchanges port w w' [value] [] := by
  have exchanges := @one _ w w' port _ next
  simpa [wordIn, wordOut] using exchanges

theorem sent {value : UInt16} (next : w'.trace = .outw port value :: w.trace) :
    Exchanges port w w' [] [value] := by
  have exchanges := @one _ w w' port _ next
  simpa [wordIn, wordOut] using exchanges

end Exchanges

/-- A program that moves no word through the port and stores nothing. -/
def MovesNothing (port : UInt16) (x : Io σ α) : Prop :=
  ∀ w a w', Returns x w a w' → w'.memory = w.memory ∧ Exchanges port w w' [] []

theorem movesNothing_pure (a : α) : MovesNothing port (pure a : Io σ α) := by
  intro w _ w' run
  obtain ⟨-, rfl⟩ := returns_pure.mp run
  exact ⟨rfl, .refl port w⟩

theorem movesNothing_inb : MovesNothing port (inb bus p) := by
  intro w value w' run
  obtain ⟨-, rfl⟩ := returns_inb.mp run
  exact ⟨rfl, @Exchanges.one _ w _ port (.inb p _) rfl⟩

theorem movesNothing_outb {value : UInt8} : MovesNothing port (outb bus p value) := by
  intro w _ w' run
  obtain rfl := returns_outb.mp run
  exact ⟨rfl, @Exchanges.one _ w _ port (.outb p value) rfl⟩

theorem MovesNothing.bind (first : MovesNothing port x) (rest : ∀ a, MovesNothing port (f a)) :
    MovesNothing port (x >>= f) := by
  intro w b w'' run
  obtain ⟨a, w', before, after⟩ := returns_bind.mp run
  obtain ⟨memory, exchanges⟩ := first w a w' before
  obtain ⟨memory', exchanges'⟩ := rest a w' b w'' after
  exact ⟨memory'.trans memory, exchanges.trans exchanges'⟩

theorem MovesNothing.times {body : Nat → Io σ Unit} (round : ∀ i, MovesNothing port (body i)) (n : Nat) :
    MovesNothing port (PortIo.times n body) := by
  induction n with
  | zero => exact movesNothing_pure ()
  | succ n ih => exact ih.bind fun _ => round n

theorem MovesNothing.loop {round : α → Io σ (α ⊕ β)} (step : ∀ a, MovesNothing port (round a))
    (fuel : Nat) (a : α) : MovesNothing port (PortIo.loop fuel round a) := by
  induction fuel generalizing a with
  | zero => exact fun w b w' run => (returns_stuck run).elim
  | succ fuel ih =>
    refine (step a).bind fun next => ?_
    cases next with
    | inl a' => exact ih a'
    | inr b => exact movesNothing_pure b

theorem movesNothing_poll (fuel : Nat) (ch : UInt16) : MovesNothing port (poll bus fuel ch) := by
  have scan : ∀ {β : Type} (test : UInt8 → Option β) (status : UInt8),
      MovesNothing port (testThenRead bus (ataRegStatus ch) test status) := by
    intro β test status
    unfold testThenRead
    split
    · exact movesNothing_pure _
    · exact movesNothing_inb.bind fun _ => movesNothing_pure _
  refine .bind (.times (fun _ => movesNothing_inb.bind fun _ => movesNothing_pure ()) _) fun _ => ?_
  refine movesNothing_inb.bind fun _ => ?_
  exact .bind (.loop (scan busyTest) fuel _) fun _ => .loop (scan readyTest) fuel _

/-- Up to its first sector a call moves no word. -/
theorem movesNothing_upTo_zero (fuel : Nat) (call : Call) :
    MovesNothing port (call.upTo bus fuel 0) := by
  refine .bind (.loop (fun _ => movesNothing_inb.bind fun value => ?_) fuel ()) fun _ => ?_
  · split <;> exact movesNothing_pure _
  · refine .bind ?_ fun _ => movesNothing_pure none
    exact movesNothing_outb.bind fun _ => movesNothing_outb.bind fun _ => movesNothing_outb.bind fun _ =>
      movesNothing_outb.bind fun _ => movesNothing_outb.bind fun _ => movesNothing_outb.bind fun _ =>
        movesNothing_outb

/-! ## The words of the buffer -/

/-- The data register of the channel that the call is about. -/
def Call.data (call : Call) : UInt16 := ataRegData (ataBusPort call.dev.channel)

/-- The first `n` words of the buffer were filled, in order, with the words that the port delivered;
no other memory has changed. -/
def Filled (call : Call) (w w' : World σ) (n : Nat) : Prop :=
  ∃ words, words.length = n ∧ Exchanges call.data w w' words [] ∧
    w'.memory = storeWords w.memory call.buf (fun i => words.getD i 0) n

/-- The first `n` words of the buffer were sent, in order; the memory has not changed. -/
def Sent (call : Call) (w w' : World σ) (n : Nat) : Prop :=
  w'.memory = w.memory ∧ Exchanges call.data w w' []
    ((List.range n).map fun i => UInt16.ofNat (load w.memory (call.buf + 2 * i) 2))

/-- What the call has done with the first `n` words of its buffer. -/
def MovesWords (call : Call) (w w' : World σ) (n : Nat) : Prop :=
  if call.write then Sent call w w' n else Filled call w w' n

theorem movesWords_write (write : call.write = true) : MovesWords call w w' n ↔ Sent call w w' n := by
  rw [MovesWords, if_pos write]

theorem movesWords_read (read : call.write = false) : MovesWords call w w' n ↔ Filled call w w' n := by
  rw [MovesWords, if_neg (by simp [read])]

theorem MovesWords.still (moves : MovesWords call w v n) (memory : v'.memory = v.memory)
    (exchanges : Exchanges call.data v v' [] []) : MovesWords call w v' n := by
  cases write : call.write with
  | true =>
    obtain ⟨kept, sent⟩ := (movesWords_write write).mp moves
    have both := sent.trans exchanges
    rw [List.append_nil, List.append_nil] at both
    exact (movesWords_write write).mpr ⟨memory.trans kept, both⟩
  | false =>
    obtain ⟨words, length, taken, stored⟩ := (movesWords_read write).mp moves
    have both := taken.trans exchanges
    rw [List.append_nil, List.append_nil] at both
    exact (movesWords_read write).mpr ⟨words, length, both, memory.trans stored⟩

/-- Nothing has moved when the first sector is due. -/
theorem moves_start (run : Returns (call.upTo bus fuel 0) w none w') : MovesWords call w w' 0 := by
  obtain ⟨memory, exchanges⟩ := movesNothing_upTo_zero fuel call w none w' run
  unfold MovesWords
  split
  · exact ⟨memory, exchanges⟩
  · exact ⟨[], rfl, exchanges, memory⟩

/-- The next word of the buffer. -/
theorem MovesWords.word {i j : Nat} (moves : MovesWords call w v (i * 256 + j)) :
    ∃ v', Returns (call.word bus (ataBusPort call.dev.channel) i j) v () v' ∧
      MovesWords call w v' (i * 256 + (j + 1)) := by
  rw [← Nat.add_assoc]
  cases write : call.write with
  | true =>
    obtain ⟨memory, exchanges⟩ := (movesWords_write write).mp moves
    obtain ⟨word, word_eq⟩ : ∃ word, word = UInt16.ofNat (load v.memory (call.buf + 2 * (i * 256 + j)) 2) :=
      ⟨_, rfl⟩
    have moved : Returns (writeWord bus call.buf (ataBusPort call.dev.channel) i j) v () _ :=
      Returns.bind (returns_peek.mpr ⟨rfl, rfl⟩) (returns_outw.mpr rfl)
    rw [← show call.word bus = writeWord bus call.buf by simp [Call.word, write]] at moved
    refine ⟨_, moved, (movesWords_write write).mpr ⟨memory, ?_⟩⟩
    have next : Exchanges call.data v ⟨bus.outw call.data word v.device,
        .outw call.data word :: v.trace, v.memory⟩ [] [word] := .sent rfl
    have both := exchanges.trans next
    rw [List.range_succ, List.map_append, ← memory]
    rw [word_eq, ← memory] at both
    exact both
  | false =>
    obtain ⟨words, length, exchanges, memory⟩ := (movesWords_read write).mp moves
    have moved : Returns (readWord bus call.buf (ataBusPort call.dev.channel) i j) v () _ :=
      Returns.bind (returns_inw.mpr ⟨rfl, rfl⟩) (returns_poke.mpr rfl)
    rw [← show call.word bus = readWord bus call.buf by simp [Call.word, write]] at moved
    refine ⟨_, moved, (movesWords_read write).mpr ?_⟩
    refine ⟨words ++ [(bus.inw call.data v.device).1], ?_, exchanges.trans (.taken rfl), ?_⟩
    · rw [List.length_append, length]
      rfl
    · have before : storeWords w.memory call.buf
          (fun i => (words ++ [(bus.inw call.data v.device).1]).getD i 0) (i * 256 + j) = v.memory := by
        rw [memory]
        refine storeWords_congr _ _ fun i low => ?_
        simp only [List.getD_eq_getElem?_getD]
        rw [List.getElem?_append_left (by omega)]
      have last : (words ++ [(bus.inw call.data v.device).1]).getD (i * 256 + j) 0 =
          (bus.inw call.data v.device).1 := by
        simp [List.getD_eq_getElem?_getD, ← length]
      rw [storeWords, before, last]
      rfl

/-- The next words of the buffer. -/
theorem MovesWords.row {i : Nat} (moves : MovesWords call w v (i * 256))
    (row : Returns (times n (call.word bus (ataBusPort call.dev.channel) i)) v () v') :
    MovesWords call w v' (i * 256 + n) := by
  have start : MovesWords call w v (i * 256 + 0) := by rwa [Nat.add_zero]
  obtain ⟨u, row', moves'⟩ := @returns_times _ v n (call.word bus (ataBusPort call.dev.channel) i)
    (fun j v => MovesWords call w v (i * 256 + j)) start fun j _ v moves => moves.word
  obtain ⟨-, rfl⟩ := row.deterministic row'
  exact moves'

/-- Every sector that goes through moves its 256 words. -/
theorem moves_upTo (run : Returns (call.upTo bus fuel k) w none w') : MovesWords call w w' (256 * k) := by
  induction k generalizing w' with
  | zero => exact moves_start run
  | succ k ih =>
    obtain ⟨v, before, sector⟩ := returns_upTo_succ.mp run
    obtain ⟨u, polled, words⟩ := returns_transferSector_none.mp sector
    obtain ⟨memory, exchanges⟩ := movesNothing_poll fuel _ v 0 u polled
    have start : MovesWords call w u (k * 256) := by
      rw [Nat.mul_comm k 256]
      exact (ih before).still memory exchanges
    rw [Nat.mul_comm, Nat.succ_mul]
    exact start.row words

/-! ## The poll that fails -/

/-- The polls of the first `k` sectors succeed, and the one before sector `k` fails. -/
def FailsAt (bus : Bus σ) (fuel : Nat) (call : Call) (w : World σ) (k : Nat) : Prop :=
  ∃ v v', Returns (call.upTo bus fuel k) w none v ∧
    Returns (poll bus fuel (ataBusPort call.dev.channel)) v (-1) v'

/-- No poll fails before the sectors that went through. -/
theorem FailsAt.behind (fails : FailsAt bus fuel call w k)
    (run : Returns (call.upTo bus fuel n) w none w') : n ≤ k := by
  obtain ⟨v, v', before, failed⟩ := fails
  by_contra below
  obtain ⟨u, more⟩ := upTo_lower run (not_le.mp below)
  obtain ⟨v₁, before₁, sector⟩ := returns_upTo_succ.mp more
  obtain ⟨-, rfl⟩ := before.deterministic before₁
  obtain ⟨u₁, polled, -⟩ := returns_transferSector_none.mp sector
  have same := (failed.deterministic polled).1
  cases same

theorem FailsAt.unique {k' : Nat} (fails : FailsAt bus fuel call w k) (fails' : FailsAt bus fuel call w k') :
    k = k' := by
  obtain ⟨v, v', before, -⟩ := id fails
  obtain ⟨u, u', before', -⟩ := id fails'
  exact le_antisymm (fails'.behind before) (fails.behind before')

/-- A sector that ends the call had its poll fail, and nothing else happened. -/
theorem poll_of_sector_some {word : Nat → Nat → Io σ Unit} {ch : UInt16} {i : Nat} {r : Int}
    (run : Returns (transferSector bus fuel word ch i) w (some r) w') :
    Returns (poll bus fuel ch) w (-1) w' := by
  obtain ⟨failed, v, polled, rest⟩ := returns_bind.mp run
  obtain ⟨m, n, -, -, -, result, -⟩ := returns_poll.mp polled
  by_cases ok : failed = 0
  · simp only [ok, ne_eq, not_true_eq_false, ↓reduceIte] at rest
    obtain ⟨u, v', -, last⟩ := returns_bind.mp rest
    have impossible := (returns_pure.mp last).1
    cases impossible
  · simp only [ne_eq, ok, not_false_eq_true, ↓reduceIte, returns_pure] at rest
    obtain ⟨-, rfl⟩ := rest
    have value : failed = -1 := by
      unfold pollResult at result
      split at result
      · exact result
      · exact absurd result ok
    rwa [value] at polled

theorem returns_upTo_succ_some {r : Int} (run : Returns (call.upTo bus fuel (n + 1)) w (some r) w') :
    Returns (call.upTo bus fuel n) w (some r) w' ∨ ∃ v, Returns (call.upTo bus fuel n) w none v ∧
      Returns (transferSector bus fuel (call.word bus (ataBusPort call.dev.channel))
        (ataBusPort call.dev.channel) n) v (some r) w' := by
  obtain ⟨s, v₁, waited, rest⟩ := returns_bind.mp run
  obtain ⟨u, v₂, issued, row⟩ := returns_bind.mp rest
  rcases returns_timesReturn_some.mp row with before | ⟨v, before, last⟩
  · exact .inl (waited.bind (issued.bind before))
  · exact .inr ⟨v, waited.bind (issued.bind before), last⟩

/-- A poll that fails ends the call. -/
theorem FailsAt.returns (fails : FailsAt bus fuel call w k) (below : k < n) :
    ∃ w', Returns (call.upTo bus fuel n) w (some (-1)) w' := by
  obtain ⟨v, v', before, failed⟩ := fails
  obtain ⟨s, v₁, waited, rest⟩ := returns_bind.mp before
  obtain ⟨u, v₂, issued, row⟩ := returns_bind.mp rest
  have sector : Returns (transferSector bus fuel (call.word bus (ataBusPort call.dev.channel))
      (ataBusPort call.dev.channel) k) v (some (-1)) v' :=
    failed.bind (by rw [if_pos (by decide), returns_pure]; exact ⟨rfl, rfl⟩)
  have longer : ∀ n, k < n → Returns (timesReturn n (transferSector bus fuel
      (call.word bus (ataBusPort call.dev.channel)) (ataBusPort call.dev.channel))) v₂ (some (-1)) v' := by
    intro n below
    induction n with
    | zero => exact absurd below (Nat.not_lt_zero k)
    | succ n ih =>
      rcases Nat.lt_succ_iff_lt_or_eq.mp below with early | rfl
      · exact returns_timesReturn_some.mpr (.inl (ih early))
      · exact returns_timesReturn_some.mpr (.inr ⟨v, row, sector⟩)
  exact ⟨v', waited.bind (issued.bind (longer n below))⟩

/-- A call that ends early has moved the sectors before the poll that failed. -/
theorem failsAt_of_some {r : Int} (run : Returns (call.upTo bus fuel n) w (some r) w') :
    ∃ k < n, FailsAt bus fuel call w k ∧ MovesWords call w w' (256 * k) := by
  induction n with
  | zero =>
    obtain ⟨s, v₁, -, rest⟩ := returns_bind.mp run
    obtain ⟨u, v₂, -, row⟩ := returns_bind.mp rest
    have impossible := (returns_pure.mp row).1
    cases impossible
  | succ n ih =>
    rcases returns_upTo_succ_some run with early | ⟨v, before, sector⟩
    · obtain ⟨k, below, rest⟩ := ih early
      exact ⟨k, below.trans n.lt_succ_self, rest⟩
    · have failed := poll_of_sector_some sector
      obtain ⟨memory, exchanges⟩ := movesNothing_poll fuel _ v _ w' failed
      exact ⟨n, n.lt_succ_self, ⟨v, w', before, failed⟩, (moves_upTo before).still memory exchanges⟩

/-! ## Calls that return -/

/-- The first `n` words of the buffer were read or sent: the port delivered `n` words, which lie in the
buffer in their order while all other memory is as it was, or it took the words of the buffer. -/
def Moved (call : Call) (w w' : World σ) (n : Nat) : Prop :=
  if call.write then Sent call w w' n
  else ∃ words, words.length = n ∧ Exchanges call.data w w' words [] ∧
    (∀ i < n, load w'.memory (call.buf + 2 * i) 2 = (words.getD i 0).toNat) ∧
    ∀ x, (∀ i < 2 * n, x ≠ cell (call.buf + i)) → w'.memory x = w.memory x

theorem MovesWords.moved (moves : MovesWords call w w' n) (few : n ≤ 2 ^ 31) : Moved call w w' n := by
  cases write : call.write with
  | true =>
    rw [Moved, if_pos write]
    exact (movesWords_write write).mp moves
  | false =>
    obtain ⟨words, length, exchanges, memory⟩ := (movesWords_read write).mp moves
    rw [Moved, if_neg (by simp [write])]
    refine ⟨words, length, exchanges, fun i low => ?_, fun x outside => ?_⟩
    · rw [memory, load_storeWords _ _ _ low few]
    · rw [memory, storeWords_outside _ _ outside]

/-- A call that returns has moved the sectors before the first poll that failed and returned -1, or it
has moved all of them and returned 0. -/
theorem transfer_moves_words {r : Int} (few : 1 ≤ call.count.toInt) (many : call.count.toInt ≤ 256)
    (run : Returns (call.run bus fuel) w r w') :
    (∀ k < call.sectors, FailsAt bus fuel call w k → r = -1 ∧ Moved call w w' (256 * k)) ∧
      ((∀ k < call.sectors, ¬ FailsAt bus fuel call w k) →
        r = 0 ∧ Moved call w w' (256 * call.sectors)) := by
  have sectors : call.sectors ≤ 256 := by
    unfold Call.sectors
    omega
  rw [Call.run_eq] at run
  obtain ⟨result, v, reached, rest⟩ := returns_bind.mp run
  obtain ⟨value, rfl⟩ := returns_pure.mp rest
  cases result with
  | none =>
    refine ⟨fun k below fails => ?_, fun _ => ⟨value.symm, (moves_upTo reached).moved (by omega)⟩⟩
    exact absurd (fails.behind reached) (Nat.not_le.mpr below)
  | some failed =>
    obtain ⟨k, below, fails, moves⟩ := failsAt_of_some reached
    refine ⟨fun k' _ fails' => ?_, fun none_ => absurd fails (none_ k below)⟩
    obtain rfl := fails.unique fails'
    obtain rfl := returns_upTo_some reached
    exact ⟨value.symm, moves.moved (by omega)⟩

/-! ### A drive that fails at its second sector -/

/-- Of a script whose first four values are not looked at the fifth ends the poll. -/
theorem script_poll {v : World (List UInt8)} {a b c d s : UInt8} {rest : List UInt8} (ch : UInt16)
    (script : v.device = a :: b :: c :: d :: s :: rest) (clear : ¬ Busy s) (ended : Faulty s ∨ Requesting s) :
    ∃ v', Finishes (fun fuel => poll scriptBus fuel ch) v (pollResult s) v' ∧ v'.device = rest := by
  have status : statusOf scriptBus ch v 4 = s := by
    rw [statusOf, answer_script, script]
    rfl
  have ends : PollEnds scriptBus ch v 4 4 :=
    ⟨le_rfl, le_rfl, fun i low high => absurd high (by omega), status ▸ clear,
      fun i low high => absurd high (by omega), status ▸ ended⟩
  refine ⟨_, status ▸ finishes_poll ends, ?_⟩
  change (afterReads scriptBus _ 5 v).device = rest
  rw [device_script, script]
  rfl

/-- A sector that is written. -/
theorem script_sector {v w : World (List UInt8)} {a b c d s : UInt8} {rest : List UInt8} (write : call.write = true)
    (reached : Finishes (fun fuel => call.upTo scriptBus fuel k) w none v)
    (script : v.device = a :: b :: c :: d :: s :: rest) (clear : ¬ Busy s) (requests : Requesting s)
    (well : ¬ Faulty s) :
    ∃ v', Finishes (fun fuel => call.upTo scriptBus fuel (k + 1)) w none v' ∧ v'.device = rest := by
  obtain ⟨u, ⟨more, polled⟩, device⟩ := script_poll (ataBusPort call.dev.channel) script clear (.inr requests)
  obtain ⟨v', row, device'⟩ := @returns_times _ u 256 (call.word scriptBus (ataBusPort call.dev.channel) k)
    (fun _ v => v.device = rest) device fun j _ v same => by
      rw [show call.word scriptBus = writeWord scriptBus call.buf by simp [Call.word, write]]
      exact ⟨_, Returns.bind (returns_peek.mpr ⟨rfl, rfl⟩) (returns_outw.mpr rfl), same⟩
  obtain ⟨enough, before⟩ := reached
  rw [pollResult, if_neg well] at polled
  exact ⟨v', ⟨max enough more, fun fuel le => returns_upTo_succ.mpr ⟨v, before _ (by omega),
    returns_transferSector_none.mpr ⟨u, polled _ (by omega), row⟩⟩⟩, device'⟩

/-- Two sectors are to be written from 0x2000 on. -/
def twoSectors : Call := ⟨true, .located 0 0 16, 0, 2, 0x2000⟩

/-- The drive asks for the first sector, and reports an error before the second one. -/
def failsSecond : World (List UInt8) :=
  ⟨[0x50, 0x50, 0x50, 0x50, 0x50, 0x58, 0x50, 0x50, 0x50, 0x50, 0x01], [], fun x => UInt8.ofNat x⟩

theorem transfer_moves_words_second_sector : ∃ fuel w',
    Returns (twoSectors.run scriptBus fuel) failsSecond (-1) w' ∧ Moved twoSectors failsSecond w' 256 := by
  have sectors : twoSectors.sectors = 2 := by decide
  obtain ⟨v, start, device⟩ := @script_start twoSectors failsSecond _ _ rfl (by decide)
  obtain ⟨v', ⟨enough, first⟩, device'⟩ := script_sector rfl start device (by decide) (by decide) (by decide)
  obtain ⟨u, ⟨more, polled⟩, -⟩ :=
    script_poll (ataBusPort twoSectors.dev.channel) device' (by decide) (.inl (by decide))
  have fails : FailsAt scriptBus (max enough more) twoSectors failsSecond 1 :=
    ⟨v', u, first _ (le_max_left _ _), polled _ (le_max_right _ _)⟩
  obtain ⟨w', reached⟩ := fails.returns (n := twoSectors.sectors) (by omega)
  have run : Returns (twoSectors.run scriptBus (max enough more)) failsSecond (-1) w' := by
    rw [Call.run_eq]
    exact reached.bind (returns_pure.mpr ⟨rfl, rfl⟩)
  have moves := (transfer_moves_words (show 1 ≤ twoSectors.count.toInt by decide) (by decide) run).1
  exact ⟨_, w', run, (moves 1 (by omega) fails).2⟩

end AtaKernel.Ata
