import OpenPlc.Net.Fragments

/-! What `ip4_frag` cuts is put together again, in whatever order the fragments come. -/
namespace OpenPlc.Net.Reassembly
open Pieces

/-- The header of the fragment of so many bytes from a place on -/
def Header.cut (original : Header) (total first length : Nat) : Header :=
  {original with
    reserved := false, dontFragment := false, moreFragments := decide (first + length < total), offset := first / 8,
    len := length + ipHlen, chksum := 0}

/-- Headers and data that are the bytes from a place on, cut at multiples of eight -/
def Cuts (original : Header) (whole : List UInt8) : Nat → List (Header × List UInt8) → Prop
  | first,[] => first = whole.length
  | first,(header,data) :: rest =>
    8 ∣ first ∧ data ≠ [] ∧ first + data.length ≤ whole.length ∧ data = slice whole first (first + data.length) ∧
      header = original.cut whole.length first data.length ∧ Cuts original whole (first + data.length) rest

/-- What is left behind the last full fragment does not fit the MTU together with it. -/
def Aligned (mtu total : Nat) : Prop :=
  total ≤ fragmentUnits mtu * 8 ∨ total % (fragmentUnits mtu * 8) = 0 ∨ (mtu - ipHlen) % 8 < total % (fragmentUnits mtu * 8)

section Cutting
variable {mtu total : Nat} {original : Header} {bytes : List UInt8}

theorem units_room (mtu : Nat) : mtu - ipHlen = fragmentUnits mtu * 8 + (mtu - ipHlen) % 8 :=
  (Nat.div_add_mod' (mtu - ipHlen) 8).symm

theorem aligned_of_dvd (full : (mtu - ipHlen) % 8 = 0) : Aligned mtu total := by
  rcases Nat.eq_zero_or_pos (total % (fragmentUnits mtu * 8)) with none_ | some_
  · exact .inr (.inl none_)
  · exact .inr (.inr (by rw [full]; exact some_))

/-- Every fragment but the last leaves more than fits the MTU. -/
theorem Aligned.left_beyond (aligned : Aligned mtu total) (k : Nat)
    (more : fragmentUnits mtu * 8 < total - k * (fragmentUnits mtu * 8)) : mtu - ipHlen < total - k * (fragmentUnits mtu * 8) := by
  by_contra fits
  have room := units_room mtu
  have small := Nat.mod_lt (mtu - ipHlen) (by decide : 0 < 8)
  have wide : fragmentUnits mtu * 8 = 0 ∨ 8 ≤ fragmentUnits mtu * 8 := by omega
  unfold Aligned at aligned
  generalize fragmentUnits mtu * 8 = w at *
  have split_ : total = (k + 1) * w + (total - k * w - w) := by
    rw [Nat.add_mul]
    omega
  have one : w ≤ (k + 1) * w := Nat.le_mul_of_pos_left w (Nat.succ_pos k)
  have rest : total % w = (total - k * w - w) % w := by
    conv_lhs => rw [split_]
    exact Nat.mul_add_mod' _ _ _
  rcases Nat.lt_or_ge (total - k * w - w) w with below | beyond
  · rw [Nat.mod_eq_of_lt below] at rest
    omega
  · have none_ : w = 0 := by omega
    rw [none_,Nat.mod_zero] at aligned
    rw [none_,Nat.mul_zero] at fits more
    omega

/-- From a place on that a fragment begins at, or from the end -/
theorem ip4FragLoop_cuts (last_ : original.moreFragments = false) (small : bytes.length ≤ 65515) (room : 0 < fragmentUnits mtu)
    (aligned : Aligned mtu bytes.length) (fuel count poff ofo : Nat) (enough : bytes.length - poff < fuel)
    (place : poff = bytes.length ∨ poff < bytes.length ∧ (∃ k, poff = k * (fragmentUnits mtu * 8)) ∧ ofo = poff / 8) :
    ∃ sent, ip4FragLoop (fun _ => true) mtu original bytes fuel count poff ofo = some (sent,true) ∧
      Cuts original bytes poff sent := by
  induction fuel generalizing count poff ofo with
  | zero => exact absurd enough (Nat.not_lt_zero _)
  | succ fuel ih =>
    rw [ip4FragLoop]
    dsimp only
    rcases place with done | ⟨within,⟨k,full⟩,offset⟩
    · rw [if_pos (by omega)]
      exact ⟨[],rfl,done⟩
    · have next := ih (count + 1) (poff + min (bytes.length - poff) (fragmentUnits mtu * 8))
        ((ofo + fragmentUnits mtu) % 65536) (by omega) ?_
      · obtain ⟨rest,sent,cuts⟩ := next
        rw [if_neg (by omega),if_neg (by simp),sent]
        have length : ((bytes.drop poff).take (min (bytes.length - poff) (fragmentUnits mtu * 8))).length =
            min (bytes.length - poff) (fragmentUnits mtu * 8) := by
          rw [List.length_take,List.length_drop]
          omega
        refine ⟨_,rfl,?_,?_,?_,?_,?_,?_⟩
        · rw [full,← Nat.mul_assoc]
          exact Nat.dvd_mul_left _ _
        · exact List.ne_nil_of_length_pos (by omega)
        · omega
        · rw [length,slice,Nat.add_sub_cancel_left]
        · have more : (!decide (bytes.length - poff + ipHlen ≤ mtu) || original.moreFragments) =
              decide (poff + min (bytes.length - poff) (fragmentUnits mtu * 8) < bytes.length) := by
            have fits := units_room mtu
            rw [last_,Bool.or_false,Bool.eq_iff_iff,Bool.not_eq_true',decide_eq_false_iff_not,decide_eq_true_eq]
            rcases Nat.lt_or_ge (fragmentUnits mtu * 8) (bytes.length - poff) with beyond | within
            · have left := aligned.left_beyond k (full ▸ beyond)
              rw [← full] at left
              omega
            · omega
          rw [length,Header.cut,more,offset,Nat.mod_eq_of_lt (by unfold ipHlen; omega),Nat.mod_eq_of_lt (by omega)]
        · rw [length]
          exact cuts
      · rcases Nat.lt_or_ge (fragmentUnits mtu * 8) (bytes.length - poff) with beyond | within
        · right
          refine ⟨by omega,⟨k + 1,?_⟩,?_⟩
          · rw [Nat.min_eq_right (Nat.le_of_lt beyond),full,Nat.add_mul,Nat.one_mul]
          · omega
        · left
          omega

/-- The loop ends, and the fragments are the bytes. -/
theorem ip4Frag_cuts (plain : original.hlen = ipHlen ∧ original.offset = 0 ∧ original.moreFragments = false)
    (small : bytes.length ≤ 65515) (room : 0 < fragmentUnits mtu) (aligned : Aligned mtu bytes.length) :
    ∃ sent, ip4Frag (fun _ => true) mtu original bytes = some (sent,true) ∧ Cuts original bytes 0 sent := by
  have place : 0 = bytes.length ∨ 0 < bytes.length ∧ (∃ k, 0 = k * (fragmentUnits mtu * 8)) ∧ original.offset = 0 / 8 := by
    rcases Nat.eq_zero_or_pos bytes.length with none_ | some_
    · exact .inl none_.symm
    · exact .inr ⟨some_,⟨0,(Nat.zero_mul _).symm⟩,plain.2.1⟩
  rw [ip4Frag,if_neg (not_not.mpr plain.1)]
  exact ip4FragLoop_cuts plain.2.2 small room aligned _ 0 0 _ (by omega) place

/-- A fragment in front of another one has room for no more. -/
theorem cuts_left_beyond (last_ : original.moreFragments = false) (room : 0 < fragmentUnits mtu) {sent : List (Header × List UInt8)}
    (fuel count j ofo : Nat)
    (made : ip4FragLoop (fun _ => true) mtu original bytes fuel count (j * (fragmentUnits mtu * 8)) ofo = some (sent,true))
    (cuts : Cuts original bytes (j * (fragmentUnits mtu * 8)) sent) (k : Nat) (later : j ≤ k)
    (more : fragmentUnits mtu * 8 < bytes.length - k * (fragmentUnits mtu * 8)) :
    mtu - ipHlen < bytes.length - k * (fragmentUnits mtu * 8) := by
  induction fuel generalizing count j ofo sent with
  | zero => exact absurd made nofun
  | succ fuel ih =>
    have behind : j * (fragmentUnits mtu * 8) ≤ k * (fragmentUnits mtu * 8) := Nat.mul_le_mul_right _ later
    have width : min (bytes.length - j * (fragmentUnits mtu * 8)) (fragmentUnits mtu * 8) = fragmentUnits mtu * 8 := by omega
    have next : (j + 1) * (fragmentUnits mtu * 8) = j * (fragmentUnits mtu * 8) + fragmentUnits mtu * 8 := by
      rw [Nat.add_mul,Nat.one_mul]
    rw [ip4FragLoop] at made
    dsimp only at made
    rw [if_neg (by omega),if_neg (by simp),width,← next] at made
    obtain ⟨⟨rest,ok⟩,tail,same⟩ := Option.map_eq_some_iff.mp made
    cases same
    obtain ⟨_,_,_,_,header,onward⟩ := cuts
    have length : ((bytes.drop (j * (fragmentUnits mtu * 8))).take (fragmentUnits mtu * 8)).length = fragmentUnits mtu * 8 := by
      rw [List.length_take,List.length_drop]
      omega
    rw [length] at header onward
    rcases Nat.eq_or_lt_of_le later with rfl | further
    · have flag : (!decide (bytes.length - j * (fragmentUnits mtu * 8) + ipHlen ≤ mtu) || original.moreFragments) =
          decide (j * (fragmentUnits mtu * 8) + fragmentUnits mtu * 8 < bytes.length) := congrArg Header.moreFragments header
      have onward : j * (fragmentUnits mtu * 8) + fragmentUnits mtu * 8 < bytes.length := by omega
      rw [last_,Bool.or_false,decide_eq_true onward,Bool.not_eq_true',decide_eq_false_iff_not] at flag
      omega
    · rw [← next] at onward
      exact ih (count + 1) (j + 1) _ tail onward further

/-- The fragments are right exactly if no fragment but the last could have carried the rest. -/
theorem aligned_iff_cuts (plain : original.hlen = ipHlen ∧ original.offset = 0 ∧ original.moreFragments = false)
    (small : bytes.length ≤ 65515) (room : 0 < fragmentUnits mtu) :
    Aligned mtu bytes.length ↔
      ∃ sent, ip4Frag (fun _ => true) mtu original bytes = some (sent,true) ∧ Cuts original bytes 0 sent := by
  refine ⟨fun aligned => ip4Frag_cuts plain small room aligned,?_⟩
  rintro ⟨sent,made,cuts⟩
  rw [ip4Frag,if_neg (not_not.mpr plain.1)] at made
  have beyond := cuts_left_beyond plain.2.2 room _ 0 0 _ (by rw [Nat.zero_mul]; exact made) (by rw [Nat.zero_mul]; exact cuts)
  have fits := units_room mtu
  by_contra unaligned
  unfold Aligned at unaligned
  have wide : 0 < fragmentUnits mtu * 8 := Nat.mul_pos room (by decide)
  generalize fragmentUnits mtu * 8 = w at *
  have parts := Nat.div_add_mod' bytes.length w
  have one : 1 ≤ bytes.length / w := (Nat.one_le_div_iff wide).mpr (by omega)
  have front : (bytes.length / w - 1) * w + w = bytes.length / w * w := by
    rw [← Nat.succ_mul]
    exact congrArg (· * w) (Nat.sub_add_cancel one)
  have short := beyond (bytes.length / w - 1) (Nat.zero_le _) (by omega)
  omega

end Cutting

def Fragment.content (f : Fragment) : Header × List UInt8 := (f.header,payload f.pbufs)

def carried (frames : List Fragment) : List UInt8 := frames.flatMap fun f => payload f.pbufs

/-- A fragment that was cut from these bytes -/
structure CutFrom (original : Header) (whole : List UInt8) (f : Fragment) : Prop extends FragmentOf whole f where
  header : f.header = original.cut whole.length f.piece.start (payload f.pbufs).length
  some_ : payload f.pbufs ≠ []

section Frames
variable {original : Header} {whole : List UInt8} {frames : List Fragment} {first : Nat}

/-- The fragments as they are received -/
theorem Cuts.each (cuts : Cuts original whole first (frames.map Fragment.content)) :
    (∀ f ∈ frames, CutFrom original whole f) ∧ Abut first (frames.map Fragment.piece) ∧
      last Piece.stop first (frames.map Fragment.piece) = whole.length := by
  induction frames generalizing first with
  | nil => exact ⟨nofun,trivial,cuts⟩
  | cons f rest ih =>
    obtain ⟨divides,some_,inside,data,header,onward⟩ := cuts
    obtain ⟨others,abut,ends⟩ := ih onward
    have start : f.piece.start = first := by
      have offset : f.header.offset = first / 8 := congrArg Header.offset header
      change f.header.offsetBytes = first
      rw [f.offsetBytes,offset,Nat.div_mul_cancel divides]
    have stop : f.piece.stop = first + (payload f.pbufs).length := by
      rw [← start]
      rfl
    have own : CutFrom original whole f := by
      refine ⟨⟨by rw [stop]; exact inside,by rw [start,stop]; exact data,?_⟩,by rw [start]; exact header,some_⟩
      rw [stop]
      exact congrArg Header.moreFragments header
    refine ⟨?_,⟨start,stop ▸ abut⟩,?_⟩
    · intro g member
      rcases List.mem_cons.mp member with rfl | later
      · exact own
      · exact others g later
    · change last Piece.stop f.piece.stop _ = _
      rw [stop]
      exact ends

theorem CutFrom.forward {f : Fragment} (cut : CutFrom original whole f) : f.piece.start < f.piece.stop :=
  Nat.lt_add_of_pos_right (List.length_pos_iff.mpr cut.some_)

theorem Cuts.carried (cuts : Cuts original whole 0 (frames.map Fragment.content)) : carried frames = whole := by
  obtain ⟨own,abut,ends⟩ := cuts.each
  have data : (frames.map Fragment.piece).flatMap (fun b => payload b.pbufs) = slice whole 0 _ :=
    abut_data (fun b => payload b.pbufs) whole ?_ ?_ abut
  · rw [ends,slice_all,List.flatMap_map] at data
    exact data
  · intro b member
    obtain ⟨f,among,rfl⟩ := List.mem_map.mp member
    exact Nat.le_of_lt (own f among).forward
  · intro b member
    obtain ⟨f,among,rfl⟩ := List.mem_map.mp member
    exact (own f among).data

theorem Cuts.ordered (cuts : Cuts original whole 0 (frames.map Fragment.content)) : Ordered (frames.map Fragment.piece) := by
  obtain ⟨own,abut,_⟩ := cuts.each
  refine ordered_of_abut ?_ abut
  intro b member
  obtain ⟨f,among,rfl⟩ := List.mem_map.mp member
  exact (own f among).forward

end Frames

section Gathering
variable {whole : Nat × Nat × Nat → List UInt8} {received done frames : List Fragment} {s : Reass} {f : Fragment}
  {key : Nat × Nat × Nat} {age : Nat}

/-- These fragments of one datagram wait, and nothing else. -/
def Gathered (key : Nat × Nat × Nat) (done : List Fragment) (age : Nat) (s : Reass) : Prop :=
  done = [] ∧ s.reassdatagrams = [] ∨
    done ≠ [] ∧ ∃ r, s.reassdatagrams = [r] ∧ r.iphdr.key = key ∧ r.p.Perm (done.map Fragment.piece) ∧ reassMaxage ≤ r.timer + age

theorem findDatagram_gathered (core : Core whole received s) (among : f ∈ received)
    (room : s.pbufcount + f.pbufs.length ≤ reassMaxPbufs) (gathered : Gathered f.header.key done age s) :
    ∃ s' ipr, findDatagram f.header f.pbufs.length s = (s',some (0,ipr)) ∧ Located whole received f s' [] ipr [] ∧
      ipr.p.Perm (done.map Fragment.piece) ∧ reassMaxage ≤ ipr.timer + age := by
  rcases gathered with ⟨rfl,none_⟩ | ⟨_,r,one,key,perm,timer⟩
  · have few : s.reassdatagrams.length < numReassdata := by
      rw [none_]
      decide
    have fresh : ∀ r ∈ s.reassdatagrams, r.iphdr.key ≠ f.header.key := by
      rw [none_]
      exact nofun
    have located := core.located_new among room fresh few
    refine ⟨{s with reassdatagrams := [⟨[],f.header,0,false,reassMaxage⟩]},⟨[],f.header,0,false,reassMaxage⟩,?_,?_,
      List.Perm.refl _,Nat.le_add_right _ _⟩
    · simp [findDatagram,enqueueNewDatagram,none_,numReassdata]
    · rw [none_] at located
      exact located
  · have list : s.reassdatagrams = [] ++ r :: [] := one
    have located := core.located among room list key
    have hit : r.iphdr.matches f.header = true := (matches_iff_key _ _).mpr key
    obtain ⟨pieces,_,_,same⟩ := adopt_same r f.header
    refine ⟨_,_,?_,located,?_,?_⟩
    · simp [findDatagram,one,List.findIdx?_cons,hit]
    · rw [pieces]
      exact perm
    · rw [same]
      exact timer

/-- What a fragment makes of those that wait. -/
theorem ip4Reass_gathered (core : Core whole received s) (among : f ∈ received) (hlen : f.header.hlen = ipHlen)
    (of : FragmentOf (whole f.header.key) f) (small : (whole f.header.key).length ≤ 65515)
    (room : s.pbufcount + f.pbufs.length ≤ reassMaxPbufs) (gathered : Gathered f.header.key done age s)
    (apart : ∀ g ∈ done, Apart f.piece g.piece) :
    ∃ s' ipr p, ip4Reass f s = placed 0 (ipr.take f p) f.pbufs.length s' ∧ s'.reassdatagrams = [ipr] ∧
      ipr.iphdr.key = f.header.key ∧ Partial (whole f.header.key) (ipr.take f p) ∧ p.Perm ((f :: done).map Fragment.piece) ∧
      reassMaxage ≤ ipr.timer + age := by
  obtain ⟨s',ipr,found,located,perm,timer⟩ := findDatagram_gathered core among room gathered
  have inside := of.inside
  have enough : f.header.hlen ≤ f.header.len := by
    have filled := f.filled
    omega
  have ordered := located.partial_.ordered
  have forwards : ∀ q ∈ ipr.p, q.start ≤ q.stop := fun q member => (located.partial_.own q member).1
  have same : ip4Reass f s = reassInto 0 ipr f s' := by
    unfold ip4Reass
    dsimp only
    rw [if_neg (not_not.mpr hlen),if_neg (Nat.not_lt.mpr enough),makeRoom,if_neg (Nat.not_lt.mpr room)]
    dsimp only
    rw [found]
  have place : HasPlace ipr f := by
    refine ⟨by omega,fun _ => by omega,fun q member => ?_⟩
    obtain ⟨g,earlier,rfl⟩ := List.mem_map.mp (perm.subset member)
    exact apart g earlier
  rcases reassInto_cases 0 ipr f s' ordered forwards with ⟨refused,_⟩ | ⟨_,p,moved,sorted,into⟩
  · exact absurd place refused
  · have grown := located.partial_.take (located.key ▸ of) place.2.1 moved sorted located.adopted
    rw [located.key] at grown
    exact ⟨s',ipr,p,same.trans into,located.list,located.key,grown,moved.trans (perm.cons _),timer⟩

theorem placed_finished {ipr old : Reassdata} (clen : Nat) (one : s.reassdatagrams = [old])
    (finished : ipr.lastFrag = true ∧ Abut 0 ipr.p) :
    (placed 0 ipr clen s).1.reassdatagrams = [] ∧ (placed 0 ipr clen s).2 = some (ipr.header,ipr.pbufs) := by
  rw [placed,if_pos finished,one]
  exact ⟨rfl,rfl⟩

theorem placed_unfinished {ipr old : Reassdata} (clen : Nat) (one : s.reassdatagrams = [old])
    (unfinished : ¬ (ipr.lastFrag = true ∧ Abut 0 ipr.p)) :
    (placed 0 ipr clen s).1.reassdatagrams = [ipr] ∧ (placed 0 ipr clen s).2 = none := by
  rw [placed,if_neg unfinished,one]
  exact ⟨rfl,rfl⟩

theorem Gathered.pbufs (gathered : Gathered key done age s) :
    (queued s.reassdatagrams).length = (done.flatMap Fragment.pbufs).length := by
  rcases gathered with ⟨rfl,none_⟩ | ⟨_,r,one,_,perm,_⟩
  · rw [none_]
    rfl
  · have moved := perm.flatMap_right Piece.pbufs
    rw [List.flatMap_map] at moved
    rw [one,queued,List.flatMap_singleton]
    exact moved.length_eq

theorem Gathered.tick (gathered : Gathered key done age s) (young : age < reassMaxage) :
    Gathered key done (age + 1) (ipReassTmr s) := by
  rcases gathered with ⟨rfl,none_⟩ | ⟨some_,r,one,same,perm,timer⟩
  · exact .inl ⟨rfl,by simp [ipReassTmr,none_]⟩
  · have lives : 0 < r.timer := by omega
    exact .inr ⟨some_,older r,by simp [ipReassTmr,one,lives,older],same,perm,by change _ ≤ r.timer - 1 + _; omega⟩

end Gathering

section Complete
variable {original : Header} {bytes : List UInt8} {frames done rest : List Fragment} {r : Reassdata} {f : Fragment}

/-- With all fragments the datagram is finished. -/
theorem Partial.finished (partial_ : Partial bytes r) (cuts : Cuts original bytes 0 (frames.map Fragment.content)) (some_ : frames ≠ [])
    (perm : r.p.Perm (done.map Fragment.piece)) (all : done.Perm frames) : r.lastFrag = true ∧ Abut 0 r.p := by
  obtain ⟨_,abut,ends⟩ := cuts.each
  have same : r.p = frames.map Fragment.piece := ordered_unique partial_.ordered cuts.ordered (perm.trans (all.map _))
  obtain ⟨b,member,stop⟩ := last_mem Piece.stop (fun none_ => some_ (List.map_eq_nil_iff.mp none_) : frames.map Fragment.piece ≠ []) 0
  rw [same]
  exact ⟨partial_.last.mpr ⟨b,same ▸ member,stop.trans ends⟩,abut⟩

/-- While one is missing it is not. -/
theorem Partial.unfinished (partial_ : Partial bytes r) (cuts : Cuts original bytes 0 (frames.map Fragment.content))
    (perm : r.p.Perm (done.map Fragment.piece)) (all : (done ++ f :: rest).Perm frames) : ¬ (r.lastFrag = true ∧ Abut 0 r.p) := by
  rintro ⟨last_,abut⟩
  have complete := congrArg List.length (partial_.complete last_ abut)
  have moved := (perm.flatMap_right fun b => payload b.pbufs).length_eq
  rw [← payload_pbufs,complete,List.flatMap_map] at moved
  have total := (all.flatMap_right fun f => payload f.pbufs).length_eq
  rw [List.flatMap_append,List.flatMap_cons,List.length_append,List.length_append] at total
  have whole := congrArg List.length cuts.carried
  have own := List.length_pos_iff.mpr (cuts.each.1 f (all.subset (List.mem_append_right _ List.mem_cons_self))).some_
  change bytes.length = (done.flatMap fun f => payload f.pbufs).length at moved
  change (frames.flatMap fun f => payload f.pbufs).length = _ at whole
  omega

theorem Cuts.apart (cuts : Cuts original bytes 0 (frames.map Fragment.content)) (all : (done ++ f :: rest).Perm frames) :
    ∀ g ∈ done, Apart f.piece g.piece := by
  have pairs : (frames.map Fragment.piece).Pairwise Apart := cuts.ordered.imp Pieces.Before.apart
  have others := ((all.map Fragment.piece).pairwise_iff Pieces.Apart.symm).mpr pairs
  rw [List.map_append] at others
  intro g member
  refine Pieces.Apart.symm ((List.pairwise_append.mp others).2.2 g.piece (List.mem_map_of_mem member) f.piece ?_)
  exact List.mem_map_of_mem List.mem_cons_self

end Complete

/-! ### Runs -/

def Event.fragment : Event → Option Fragment
  | .receive f => some f
  | .tick => none

def receives (events : List Event) : List Fragment := events.filterMap Event.fragment

def ticks (events : List Event) : Nat := events.countP fun event => event.fragment.isNone

section Runs
variable {original : Header} {bytes : List UInt8} {frames done : List Fragment} {s s' : State} {key : Nat × Nat × Nat} {age : Nat}

theorem after_received (events : List Event) (reached : Run.after step s events = some s') :
    s'.received = s.received ++ receives events := by
  induction events generalizing s with
  | nil =>
    cases Option.some.inj reached
    exact (List.append_nil _).symm
  | cons event rest ih =>
    cases event with
    | receive f =>
      rw [ih reached]
      exact List.append_assoc _ _ _
    | tick => exact ih (s := {s with reass := ipReassTmr s.reass}) reached

/-- Nothing waits, and only the timer goes on. -/
theorem idle_run (events : List Event) (inv : Inv (fun _ => bytes) s) (none_ : s.reass.reassdatagrams = [])
    (quiet : receives events = []) :
    ∃ s', Run.after step s events = some s' ∧ Inv (fun _ => bytes) s' ∧ s'.reass.reassdatagrams = [] ∧
      s'.delivered = s.delivered := by
  induction events generalizing s with
  | nil => exact ⟨s,rfl,inv,none_,rfl⟩
  | cons event rest ih =>
    cases event with
    | receive f => exact absurd quiet (List.cons_ne_nil _ _)
    | tick =>
      have still : (ipReassTmr s.reass).reassdatagrams = [] := by simp [ipReassTmr,none_]
      exact ih (s := {s with reass := ipReassTmr s.reass}) (step_inv .tick inv trivial rfl) still quiet

theorem gathered_run (cuts : Cuts original bytes 0 (frames.map Fragment.content)) (plain : original.hlen = ipHlen)
    (small : bytes.length ≤ 65515) (few : (frames.flatMap Fragment.pbufs).length ≤ reassMaxPbufs) (events : List Event)
    (inv : Inv (fun _ => bytes) s) (gathered : Gathered original.key done age s.reass)
    (all : (done ++ receives events).Perm frames) (awaits : receives events ≠ []) (young : age + ticks events ≤ reassMaxage) :
    ∃ s', Run.after step s events = some s' ∧ Inv (fun _ => bytes) s' ∧ s'.reass.reassdatagrams = [] ∧
      s'.delivered.length = s.delivered.length + 1 := by
  induction events generalizing s done age with
  | nil => exact absurd rfl awaits
  | cons event rest ih =>
    cases event with
    | tick =>
      have counted : ticks (.tick :: rest) = ticks rest + 1 := List.countP_cons_of_pos rfl
      exact ih (s := {s with reass := ipReassTmr s.reass}) (step_inv .tick inv trivial rfl) (gathered.tick (by omega)) all awaits
        (by omega)
    | receive f =>
      have arrived : receives (.receive f :: rest) = f :: receives rest := rfl
      rw [arrived] at all
      have cut := cuts.each.1 f (all.subset (List.mem_append_right _ List.mem_cons_self))
      have key : f.header.key = original.key := by rw [cut.header]; rfl
      have hlen : f.header.hlen = ipHlen := by rw [cut.header]; exact plain
      have sent : Sent (fun _ => bytes) s (.receive f) := fun _ => cut.toFragmentOf
      have next := step_inv (.receive f) inv sent rfl
      have total := (all.flatMap_right Fragment.pbufs).length_eq
      rw [List.flatMap_append,List.flatMap_cons,List.length_append,List.length_append] at total
      have count := inv.core.count
      have waiting := gathered.pbufs
      rw [← key] at gathered
      obtain ⟨s',ipr,p,same,one,own,partial_,perm,timer⟩ := ip4Reass_gathered (inv.core.mono f)
        (List.mem_append_right _ (List.mem_singleton.mpr rfl)) hlen cut.toFragmentOf small (by omega) gathered (cuts.apart all)
      obtain ⟨pieces,header,age_,_⟩ := take_same ipr f p
      rw [← pieces] at perm
      by_cases last_ : receives rest = []
      · rw [last_] at all
        have every : (f :: done).Perm frames := List.perm_append_comm.trans all
        have some_ : frames ≠ [] := fun none_ => absurd (none_ ▸ every.symm) (List.not_perm_nil_cons _ _)
        obtain ⟨none_,passed⟩ := placed_finished f.pbufs.length one (partial_.finished cuts some_ perm every)
        rw [← same] at none_ passed
        obtain ⟨s'',reached,inv,still,kept⟩ := idle_run rest next none_ last_
        refine ⟨s'',reached,inv,still,?_⟩
        rw [kept,passed]
        exact List.length_append
      · obtain ⟨g,others,more⟩ := List.exists_cons_of_ne_nil last_
        have missing : ((f :: done) ++ g :: others).Perm frames := by
          rw [more] at all
          exact List.perm_middle.symm.trans all
        obtain ⟨waits,passed⟩ := placed_unfinished f.pbufs.length one (partial_.unfinished cuts perm missing)
        rw [← same] at waits passed
        have further : Gathered original.key (f :: done) age (ip4Reass f s.reass).1 :=
          .inr ⟨List.cons_ne_nil _ _,_,waits,by rw [header,own,key],perm,by rw [age_]; exact timer⟩
        have counted : ticks (.receive f :: rest) = ticks rest := List.countP_cons_of_neg nofun
        obtain ⟨s'',reached,inv,still,kept⟩ := ih next further (more ▸ missing) last_ (by omega)
        refine ⟨s'',reached,inv,still,?_⟩
        rw [kept,passed]
        exact congrArg (fun list => List.length list + 1) (List.append_nil s.delivered)

/-- Whatever the MTU cuts a datagram into is put together again, in whatever order it comes, within 15 seconds and ten pbufs. -/
theorem fragments_reassembled (mtu : Nat) (original : Header) (bytes : List UInt8) (mtuFits : 28 ≤ mtu)
    (aligned : Aligned mtu bytes.length)
    (plain : original.hlen = ipHlen ∧ original.offset = 0 ∧ original.moreFragments = false) (some_ : bytes ≠ [])
    (small : bytes.length ≤ 65515) :
    ∃ sent, ip4Frag (fun _ => true) mtu original bytes = some (sent,true) ∧
      ∀ frames events, frames.map Fragment.content = sent → (receives events).Perm frames →
        (frames.flatMap Fragment.pbufs).length ≤ reassMaxPbufs → ticks events ≤ reassMaxage →
          ∃ s pbufs, Run.after step start events = some s ∧ payload pbufs = bytes ∧ s.reass.reassdatagrams = [] ∧
            s.delivered =
              [({original with len := bytes.length + ipHlen, reserved := false, dontFragment := false, chksum := 0},pbufs)] := by
  have room : 0 < fragmentUnits mtu := Nat.div_pos (by unfold ipHlen; omega) (by decide)
  obtain ⟨sent,cut,cuts⟩ := ip4Frag_cuts plain small room aligned
  refine ⟨sent,cut,?_⟩
  rintro frames events rfl all few young
  have awaits : receives events ≠ [] := by
    intro none_
    rw [none_] at all
    have carried := cuts.carried
    rw [all.symm.eq_nil] at carried
    exact some_ carried.symm
  have nothing : Gathered original.key [] 0 start.reass := .inl ⟨rfl,rfl⟩
  obtain ⟨s,reached,inv,still,one⟩ := gathered_run cuts plain.1 small few events start_inv nothing all awaits (by omega)
  obtain ⟨packet,delivered⟩ := List.length_eq_one_iff.mp one
  obtain ⟨f,among,zero,data,header⟩ := inv.delivered packet (by rw [delivered]; exact List.mem_singleton.mpr rfl)
  have received : f ∈ receives events := by
    rw [after_received events reached] at among
    exact among
  have own := ((cuts.each).1 f (all.subset received)).header
  have same : packet.1 =
      {original with len := bytes.length + ipHlen, reserved := false, dontFragment := false, chksum := 0} := by
    rw [header,own]
    simp only [Header.cut,plain.2.1,plain.2.2]
  exact ⟨s,packet.2,reached,data,still,by rw [delivered,← same]⟩

/-- For an MTU of 28 -/
theorem parts_reassembled : ∃ s pbufs, Run.after step start [.receive (secondPart 200),.tick,.receive firstPart] = some s ∧
    payload pbufs = twelve ∧ s.reass.reassdatagrams = [] ∧
      s.delivered = [(⟨20,0,32,7,false,false,false,0,64,17,0,1,2⟩,pbufs)] := by
  obtain ⟨sent,cut,delivers⟩ := fragments_reassembled 28 ⟨20,0,32,7,false,true,false,0,64,17,0,1,2⟩ twelve (by decide)
    (aligned_of_dvd rfl) ⟨rfl,rfl,rfl⟩ (by decide) (by decide)
  have parts : sent = [firstPart,secondPart 200].map Fragment.content :=
    congrArg Prod.fst (Option.some.inj (cut.symm.trans (by decide +kernel :
      _ = some ([firstPart,secondPart 200].map Fragment.content,true))))
  exact delivers [firstPart,secondPart 200] _ parts.symm (List.Perm.swap _ _ []) (by decide) (by decide)

end Runs

end OpenPlc.Net.Reassembly
