import ActorMachine.Proofs.Layout

/-!
# What follows a chunk

Where a chunk ends can be told from its own bytes. What follows them changes what every count is
checked against, and still the record is read the same: the layout of the bytes that were taken is
all that matters (`Prototype.read_append`). So no chunk is the beginning of another one, and exactly
the bytes behind a chunk are reported as trailing (`Chunk.prefixFree`).
-/

namespace ActorMachine

/-! ## Reading on -/

/-- A record that has been read is read from the same bytes whatever follows them, within any bound
on the nesting that is as great as their number. -/
theorem Prototype.read_append {depth : Nat} {r r' : Reader} {p : Prototype}
    (run : read depth r = .ok (p, r')) :
    ∃ bytes, r = ⟨r'.size, bytes ++ r'.rest⟩ ∧
      ∀ depth', bytes.length ≤ depth' → Reads (read depth') bytes p := by
  obtain ⟨bytes, hr, layout⟩ := takes_read depth r r' p run
  refine ⟨bytes, hr, fun depth' deep => layout.reads ?_⟩
  rw [recordWidth]
  omega

/-! ## Trailing bytes are reported last -/

/-- The read never fails because of trailing bytes. -/
def Read.Spares (m : Read α) : Prop :=
  ∀ (r : Reader) (count : Nat), m r ≠ .error (.trailingBytes count)

namespace Read.Spares

variable {m : Read α}

theorem pure (x : α) : Spares (Pure.pure x) := fun _ _ run => nomatch run

theorem throw {e : ChunkError} (other : ∀ count, e ≠ .trailingBytes count) :
    Spares (MonadExcept.throw e : Read α) :=
  fun _ count run => other count (Except.error.inj run)

theorem throw_bind {e : ChunkError} {f : α → Read β} (other : ∀ count, e ≠ .trailingBytes count) :
    Spares (MonadExcept.throw e >>= f) :=
  fun _ count run => other count (Except.error.inj run)

theorem bind {f : α → Read β} (first : Spares m) (rest : ∀ x, Spares (f x)) : Spares (m >>= f) := by
  intro r count run
  change StateT.bind m f r = _ at run
  rw [StateT.bind] at run
  cases hm : m r with
  | error e =>
    rw [hm] at run
    cases run
    exact first r count hm
  | ok result =>
    rw [hm] at run
    exact rest result.1 result.2 count run

theorem get_bind {f : Reader → Read β} (rest : ∀ r, Spares (f r)) : Spares (get >>= f) :=
  fun r count run => rest r r count run

theorem lift {result : Except ChunkError α}
    (other : ∀ count, result ≠ .error (.trailingBytes count)) :
    Spares (liftM result : Read α) := by
  intro r count run
  cases result with
  | ok x => cases run
  | error e => exact other count (congrArg Except.error (Except.error.inj run))

theorem map {f : α → β} (h : Spares m) : Spares (f <$> m) := by
  rw [map_eq_pure_bind]
  exact h.bind fun _ => .pure _

theorem bytes (count : Nat) : Spares (Reader.bytes count) := by
  intro r n run
  rw [Reader.bytes] at run
  split at run <;> cases run

theorem word32 : Spares Reader.word32 := (bytes 4).bind fun _ => .pure _

theorem word64 : Spares Reader.word64 := (bytes 8).bind fun _ => .pure _

theorem int64 : Spares Reader.int64 := word64.bind fun _ => .pure _

theorem real : Spares Reader.real := word64.bind fun _ => .pure _

theorem count (field : CountField) (elementSize : Nat) :
    Spares (Reader.count field elementSize) := by
  refine int64.bind fun word => .get_bind fun r => ?_
  split
  · exact .pure _
  · exact .throw nofun

theorem times (h : Spares m) (count : Nat) : Spares (Reader.times count m) := by
  induction count with
  | zero => exact .pure []
  | succ count ih => exact h.bind fun _ => ih.bind fun _ => .pure _

theorem lookup (table : List UInt8) (ref : Int) :
    Spares (liftM (StringTable.lookup table ref) : Read String) := by
  refine lift fun n failed => ?_
  rw [StringTable.lookup] at failed
  split at failed
  · cases failed
  · split at failed
    · cases failed
    · dsimp only at failed
      split at failed
      · split at failed <;> cases failed
      · cases failed

end Read.Spares

open Read (Spares)

theorem Constant.spares_read (table : List UInt8) : Spares (Constant.read table) := by
  refine .bind .word32 fun tag => .bind (.map (.bytes 4)) fun _ => ?_
  refine .bind .int64 fun n => .bind .int64 fun ref => .bind .real fun x => ?_
  split
  · exact .pure _
  · exact .bind (.lookup table _) fun _ => .pure _
  · exact .pure _
  · exact .throw nofun

theorem Import.spares_read (table : List UInt8) : Spares (Import.read table) :=
  .bind .int64 fun _ => .bind (.lookup table _) fun _ =>
    .bind .int64 fun _ => .bind (.lookup table _) fun _ => .pure _

/-- The induction is on the bound on the nesting. -/
theorem Prototype.spares_read (depth : Nat) : Spares (read depth) := by
  induction depth with
  | zero => exact .get_bind fun _ => .throw nofun
  | succ depth ih =>
    unfold read
    refine .get_bind fun start => ?_
    dsimp only
    split
    · exact .throw_bind nofun
    refine .bind .int64 fun _ => .bind .int64 fun _ => ?_
    refine .bind (.count _ _) fun _ => .bind (.count _ _) fun _ => .bind (.count _ _) fun _ => ?_
    refine .bind (.count _ _) fun _ => .bind (.count _ _) fun _ => .bind (.bytes _) fun table => ?_
    refine .bind (.lookup table _) fun _ => .bind (.lookup table _) fun _ => ?_
    refine .bind (.times .word32 _) fun _ =>
      .bind (.times (Constant.spares_read table) _) fun _ => ?_
    exact .bind (.times (Import.spares_read table) _) fun _ => .bind (.times ih _) fun _ => .pure _

/-! ## Chunks -/

theorem Header.decode_ne_trailingBytes (bytes : List UInt8) (count : Nat) :
    decode bytes ≠ .error (.trailingBytes count) := by
  intro failed
  unfold decode at failed
  split at failed
  · split at failed <;> cases failed
  · cases failed

theorem Header.checkWidth_ne_trailingBytes (field : WidthField) (found expected : UInt8)
    (count : Nat) :
    checkWidth field found expected ≠ .error (.trailingBytes count) := by
  unfold checkWidth
  split <;> exact nofun

theorem ChunkError.bind_ne {m : Except ChunkError α} {f : α → Except ChunkError β} {e : ChunkError}
    (first : m ≠ .error e) (rest : ∀ x, f x ≠ .error e) : m >>= f ≠ .error e := by
  cases m with
  | error e' => exact fun failed => first (congrArg Except.error (Except.error.inj failed))
  | ok x => exact rest x

theorem Header.checkHost_ne_trailingBytes (h : Header) (count : Nat) :
    h.checkHost ≠ .error (.trailingBytes count) := by
  simp only [checkHost]
  by_cases version : h.major = host.major ∧ h.minor = host.minor
  · rw [if_pos version]
    by_cases order : h.bigEndian = host.bigEndian
    · rw [if_pos order]
      exact ChunkError.bind_ne (checkWidth_ne_trailingBytes _ _ _ _) fun _ =>
        ChunkError.bind_ne (checkWidth_ne_trailingBytes _ _ _ _) fun _ =>
          checkWidth_ne_trailingBytes _ _ _ _
    · rw [if_neg order]
      rintro ⟨⟩
  · rw [if_neg version]
    rintro ⟨⟩

namespace Chunk

/-- An input that is accepted, or refused for nothing but trailing bytes, begins with the host's
header. -/
theorem exists_record {bytes : List UInt8}
    (past : (∃ c, decode bytes = .ok c) ∨ ∃ count, decode bytes = .error (.trailingBytes count)) :
    ∃ unused record : List UInt8, unused.length = 3 ∧
      bytes = Header.signature ++ ([1, 0, 8, 8, 4] ++ (unused ++ record)) := by
  refine Header.decode_eq_host_iff.mp ?_
  unfold decode at past
  cases hheader : Header.decode bytes with
  | error e =>
    rw [hheader] at past
    obtain ⟨c, ⟨⟩⟩ | ⟨count, failed⟩ := past
    cases failed
    exact absurd hheader (Header.decode_ne_trailingBytes bytes count)
  | ok header =>
    rw [hheader] at past
    cases hcheck : header.checkHost with
    | error e =>
      obtain ⟨c, failed⟩ | ⟨count, failed⟩ := past
      · obtain ⟨_, ⟨⟩, failed⟩ := ChunkError.ok_of_bind failed
        obtain ⟨⟨⟩, hok, -⟩ := ChunkError.ok_of_bind failed
        cases hcheck.symm.trans hok
      · dsimp only [bind, Except.bind] at failed
        rw [hcheck] at failed
        cases failed
        exact absurd hcheck (header.checkHost_ne_trailingBytes count)
    | ok _ => rw [Header.eq_host_of_checkHost hcheck]

/-- The bytes of a chunk and what follows them: the chunk is read from the former, and the latter
are counted. -/
theorem decode_append {bytes : List UInt8} {c : Chunk} (accepted : decode bytes = .ok c)
    {extra : List UInt8} (more : extra ≠ []) :
    decode (bytes ++ extra) = .error (.trailingBytes extra.length) := by
  obtain ⟨unused, record, hunused, hbytes⟩ := exists_record (.inl ⟨c, accepted⟩)
  obtain ⟨-, run⟩ := (decode_eq_ok_iff hunused hbytes).mp accepted
  obtain ⟨taken, htaken, again⟩ := Prototype.read_append run
  obtain rfl : record = taken := by simpa using congrArg Reader.rest htaken
  have hrecord : record.length ≤ (bytes ++ extra).length := by
    rw [hbytes]
    simp only [List.length_append]
    omega
  have longer : bytes ++ extra =
      Header.signature ++ ([1, 0, 8, 8, 4] ++ (unused ++ (record ++ extra))) := by
    rw [hbytes]
    simp only [List.append_assoc]
  rw [decode_eq hunused longer, again _ hrecord]
  cases extra with
  | nil => exact absurd rfl more
  | cons b extra => rfl

/-- Where bytes are reported as trailing, a chunk is accepted without them. -/
theorem exists_chunk_of_trailingBytes {bytes : List UInt8} {count : Nat}
    (refused : decode bytes = .error (.trailingBytes count)) :
    ∃ chunk extra c, bytes = chunk ++ extra ∧ extra.length = count ∧ extra ≠ [] ∧
      decode chunk = .ok c := by
  obtain ⟨unused, record, hunused, hbytes⟩ := exists_record (.inr ⟨count, refused⟩)
  rw [decode_eq hunused hbytes] at refused
  cases run : Prototype.read bytes.length ⟨bytes.length, record⟩ with
  | error e =>
    rw [run] at refused
    cases refused
    exact absurd run (Prototype.spares_read _ _ count)
  | ok result =>
    obtain ⟨module, size, extra⟩ := result
    rw [run] at refused
    obtain ⟨taken, htaken, again⟩ := Prototype.read_append run
    obtain rfl : record = taken ++ extra := congrArg Reader.rest htaken
    cases extra with
    | nil => cases refused
    | cons b extra =>
      cases refused
      let chunk := Header.signature ++ ([1, 0, 8, 8, 4] ++ (unused ++ taken))
      have hlength : taken.length ≤ chunk.length := by
        simp only [chunk, List.length_append]
        omega
      have hchunk : decode chunk = _ := decode_eq hunused rfl
      have reread := again chunk.length hlength chunk.length []
      rw [List.append_nil] at reread
      rw [reread] at hchunk
      refine ⟨chunk, b :: extra, _, ?_, rfl, List.cons_ne_nil _ _, hchunk⟩
      rw [hbytes]
      simp only [chunk, List.append_assoc]

/-- The accepted inputs are prefix-free: bytes that follow a chunk are reported, all of them and no
others, and no part from the front of a chunk is a chunk. Conversely, a report of trailing bytes
means that the input without them is a chunk. -/
theorem prefixFree :
    (∀ bytes c, decode bytes = .ok c → ∀ extra, extra ≠ [] →
      decode (bytes ++ extra) = .error (.trailingBytes extra.length)) ∧
    (∀ bytes c, decode bytes = .ok c → ∀ start, start <+: bytes → start ≠ bytes →
      ∀ c', decode start ≠ .ok c') ∧
    ∀ bytes count, decode bytes = .error (.trailingBytes count) →
      ∃ chunk extra c, bytes = chunk ++ extra ∧ extra.length = count ∧ extra ≠ [] ∧
        decode chunk = .ok c := by
  refine ⟨fun bytes c accepted extra more => decode_append accepted more, ?_,
    fun bytes count refused => exists_chunk_of_trailingBytes refused⟩
  rintro _ c accepted start ⟨extra, rfl⟩ strict c' earlier
  have more : extra ≠ [] := fun none => strict (by rw [none, List.append_nil])
  cases accepted.symm.trans (decode_append earlier more)

/-- A module with one prototype in it, and behind it as many zeros as a second one would take. -/
def followed : List UInt8 × List UInt8 :=
  (Header.host.encode ++ [0, 0, 0, 0, 1, 0, 0].flatMap Word.ofNat64 ++ List.replicate 56 0,
    List.replicate 56 0)

theorem prefixFree_followed :
    decode (followed.1 ++ followed.2) = .error (.trailingBytes 56) ∧
      (∀ c, decode (followed.1.take 68) ≠ .ok c) ∧
      ∃ chunk extra c, followed.1 ++ followed.2 = chunk ++ extra ∧ extra.length = 56 ∧ extra ≠ [] ∧
        decode chunk = .ok c := by
  obtain ⟨reported, unextended, split⟩ := prefixFree
  have accepted : decode followed.1 = .ok ⟨.host, ⟨"", "", [], [], [], [.named ""]⟩⟩ := by cbv
  have trailing := reported _ _ accepted followed.2 (by decide)
  exact ⟨trailing, unextended _ _ accepted _ (List.take_prefix 68 _) (by decide),
    split _ _ trailing⟩

end Chunk

end ActorMachine
