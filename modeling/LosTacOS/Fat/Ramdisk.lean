import LosTacOS.Fat.Volume

/-! Mounting an image that lies in memory. -/
namespace LosTacOS.Fat

open ByteMemory

def bpbOf (image : Mem) : Bpb where
  bytesPerSector := loadLE image 11 2
  sectorsPerCluster := loadLE image 13 1
  reservedSectorCount := loadLE image 14 2
  numFats := loadLE image 16 1
  totalSectors := loadLE image 32 4
  fatSize := loadLE image 36 4
  rootCluster := loadLE image 44 4

def Bpb.withSectors (b : Bpb) : Bpb :=
  if b.bytesPerSector = 0 then { b with bytesPerSector := 512 } else b

def initVolumeFromImage (v : Volume) : Option Volume :=
  let v := { v with bpb := v.bpb.withSectors }
  if 512 ≤ v.bytesPerCluster ∧ 0 < v.dataStart then some v else none

def mountRamdisk (image : Mem) (size : Nat) : Option Volume :=
  if size < 512 then none else initVolumeFromImage ⟨bpbOf image, size, image⟩

end LosTacOS.Fat
