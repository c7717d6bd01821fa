/-!
Letters, marks and digits beyond ASCII. A word of prose (`isAlphabetic`, `isAlphanumeric`) and a
name of a program (`isNameStart`, `isNamePart`) draw the line differently.
-/

namespace PropContract.Text

def rangesFrom : Nat → List Nat → List (Nat × Nat)
  | start, skipped :: taken :: runs =>
    let first := start + skipped
    (first, first + taken - 1) :: rangesFrom (first + taken) runs
  | _, _ => []

/-- Numbers in base 26 without anything between them: the last digit of a number is a small letter,
and those before it are capitals. -/
def packedNumbers : Nat → List Char → List Nat
  | _, [] => []
  | n, c :: cs =>
    if c.isUpper then packedNumbers (26 * n + (c.toNat - 'A'.toNat)) cs
    else (26 * n + (c.toNat - 'a'.toNat)) :: packedNumbers 0 cs

def rangesIn (packed : String) : List (Nat × Nat) :=
  rangesFrom 0 (packedNumbers 0 packed.toList)

def letterRanges : List (Nat × Nat) :=
  rangesIn (
    "GobkbebfxbBfbRqemofhbbbEzfbccebbgbbdbbbubDfbFjiGkbBmcbgBpCtBbeeBtBrBjcbDvbbpchckdcbqbbBeBdD" ++
    "llbyBhjcebfwebjbdbxzhlfybhqBqCgCcdbsbhkpqeicccwbhbbdedbqbncbdockbigeccwbhbcbcbcBfebbtdqjbdb" ++
    "wbhbcbfdbsbpcxblicccwbhbcbfdbBecbdpbrbbgddbedcbbbcdcdddmwbCaibdbxbqdbBadbcccBebeibdbxbkbfdb" ++
    "BedbcpcrjbdbBpcbqbfdidygfsdybjbbchCgBwbcmhCgcbbbfbybbbkbcjbcfbbveBgbClibBkBbfElBrubqgeedbdc" ++
    "hdenmbrBmbbfbcBrbMvbechbbbecBpbecBhbechbbbecpbCfbecCpBlqqDicgdXwcrbBafCxdlhsntosonbdpCaBjbe" ++
    "bCpDlhfcBibbfCskBfBxBecflBseBaCcxjCbDebDpBvriCcBenckBsBaBkBpdkBkclfBrcdBpebgbcdbfHkCmKscgcB" ++
    "mcgcibbbbbbbBfcCbbhbbddbhdecgenfdbhEmbnbqnDxbebckbbdfgbbbbbbeblceffebrBpDZbIvgedcmBmbbfbcCe" ++
    "hbqxjhbhbhbhbhbhbhbhDcbSbdzjhfcfeDigdbDmbefBrbDqrBgBwqTsJToCmBGUfCpBucKjdqkcuBvqBfcDcBnjcDz" ++
    "cDeurbdbebxBdCaoByCkgdbbclBckxzBdhBvBcbqfbkkfbBpxdbiuxdbdBybbdccfcbbbydclhdmgcgcgjhbhbBrbog" ++
    "ElBdQNsmxeBxMNcOccEcBmhmffbbkbnbfbbbcbcbEeBhNzsCmcCcBomEmfbFfBkBagBalDldgcgcgcdBjmbBabtbcbp" ++
    "coBiEtCrCbKhBddBxBvBgnBefBmkBecBkeibfBqGcsBkeBkeBoiCamlbpbhbcblbpbhbcdCamLzjwkiygbBqbjCrgcb" ++
    "bBsbcdbcxkxjBfCntbckwkBagBaBmCegcCmbpebdbBdBqBddBdBjibBcBbCckwktnsEgCvCdBznBznBkBmBcjxJqBqg" ++
    "cqgCeBdkbiwBqsBuvBbxmCbCfccbnBtBgzBaBkBdbcbiBjdbmBwoevbbbBjsbztcClhbbbebpbkhBvBmicccwbhbcbf" ++
    "dbsbmfBekbbcbbBmbbzbbbBsCbseudBeBwucbbHcBvBpeBkBwubChBrnbCtBbBlhHdBsEmCmBficbcibcbypbbbDqic" ++
    "BnqbbbBcbkBohbvblButbsCvHrBhBfjbBlrbBxBeEihbcbBmvbzgbcbBgobxBsKatpbbnbBiEubDbBJmDyEhrHoDXkD" ++
    "tpBPgrgzFXrfWlKDdBeCPuVxhBfrDbrBesBwqeBfvftQqBtIdCmBgzczBsCxfbConCmcbbofjKXyBpBgDtElMWrebhb" ++
    "cbLfpbBddcboeiPgDKuEdfndjhkIWkDhbCtbccbcccebmbbbhbCnbecibhbBcbebfbbdhbNcczbzbBfbzbBfbzbBfbz" ++
    "bBfbzbiCSyBfggKbCkFqBtkhqbMjBesBsSqBcIuBecbHzBfbdbcbhcfjcIqhbebcbpbHpChCqhbBUiebBbbcbbcbbkb" ++
    "ebbbbgbebbbbbbdbcbbcbbbbbbbbbbcbbcebhbebebbbkbrfdbfbrGOaCLFcBgGMocIOccLBlpXyDQwUwCFyHHzfMOo")

def alphabeticMarkRanges : List (Nat × Nat) :=
  rangesIn (
    "BGfbBdnWeobbbcbcbbCulBwnbhqbDxheeccebBjbBeqDylDxcdjbdbeEcbCimdhguCcccpbcfdkcBddCghcccckbkcB" ++
    "ddCgfecccebBecdbldCgibdbcvcwdedCghccccjckcBebChfddbdkbBofCfhbdbdiclcBddCghbdbdiclcpbmeCghbd" ++
    "bdkbkcBddCxgbbbiscCjbchsbDvbcgbcqbGhtjlbBkEgmbbcexeedbdchdenmbbkeCLocBecBecBecCotHgcBibEome" ++
    "jIofCfkcuCwcldBxfBwpCidBejccCflBytPwBiCOnCaDKgBgBTQaiBicNqbibxfDkcByqbbCfbBmfBcmBteBwmBlbCp" ++
    "ombicBtdBybbdccfbBsffbJdiBDZvbDEdfCMgdbcfeBEieCnbMjcCzdJzdCboBtcldBtjjbCjdBkmscCfdBwnocDojc" ++
    "bgbcbGbkxeCghcccckbkcDgjbbcbbebcDznbdEcsJdhchBdcDepbbEclDzoJxnJngbcccdbbbFmhcgebBckBqfbeslB" ++
    "uoHsiHribhDfwboEsgdbbcbdbbdbCofbcbeNkejcbbBwhddYYnrFJcbbCdheDpcBDAybNKjhbrchbcbfDwbCKhbcbhc" ++
    "fbWvbCZwBagBagBa")

def markRanges : List (Nat × Nat) :=
  rangesIn (
    "BDoEiKpfKfBtbbbcbcbbCulBwvqbDxhcgccbeBjbBeBbDnlCgjjbyebjbdbfBrdChjBqybBhCcdbsbhkcBddCebbhcc" ++
    "cdjbkcBabcdCebbfeccddbBecdbldCebbibdbducwgbdCebbhcccdhdkcBebChfddbejbBofCdbbhbdbehclcBddCeb" ++
    "bhbdbehclcpbmeCdcbhbdbejbkcBddCsbegbbbiscCjbchmiDubcjlhCvcBbbbbbbecBxubcflbBkjbDwuxeedbdchd" ++
    "enmbbkeBBbdBKkeBcdBdcBecCmBgjbBtdbbEncBibEomemIlfCfkbBdcbBwobBfcmufBvrBmjmdBenCeoBwuFwdbveb" ++
    "gbcdHqCmBBsnebdmEOcdFlbDsBgVigEbcBSQebekBgcDccKmbdbebxfebDfcBysBasnbBmiznBseBvoBkbCpombicBt" ++
    "dBybbdccfcbbBpffcJcibcBDZsbBCjqqqBLlbIsbFtfCMgdbcfeBodebGjcWbeCnfMfcCzgCslBxeEsdCbpBpbcckeB" ++
    "tlhbCjdBkoqcBsbmdBwoiebcDomgbcbGbmveCdcbhcccdjbkcchdfCpjbbcbbebfbbocDesxbDduJbhcjBbcDerEcnD" ++
    "xpJwpJlgbccebbbcFlhchdbBckBohbeibjlBuqHqiHribiDewboEsgdbbcbhbbCofbcbfNjejcbbBwhdfxbHXtbgpQY" ++
    "ysDSafChhBOibbCdheDdblcBDAxcGYzBucxUwfdgiichBeeFsdCYdCdeByibobwfbpCAihbrchbcbfDwbGehOlbCjeT" ++
    "oeJucJjbcbhcfbSghEfhBTCIvJg")

def decimalDigitRanges : List (Nat × Nat) :=
  rangesIn (
    "CKukFekHqkPwkEokEokEokEokEokEokEokEokEokDskEokCskKskCskCTqkBmkLokEykGkkgkHakDikFekgkCAEokBA" ++
    "ckBmkHqkwkDikPqkBFMckCCkkDFykgkBEqkEykCikFokKskNekEokOkkDykguCykQgkDykZmkDikJmkCskCckNukYYg" ++
    "kDMckDikFekUokBKDykECqByDNckQgkTikJnkBGvkHBak")

def otherNumberRanges : List (Nat × Nat) :=
  rangesIn (
    "GwcfbcdDMrgOmgEqdFdhIjhrjQrkBPluBRvkSmbCMvbdggkHqqBpbBByCiDawYgBeCBhbBTceFikBeibpBgkBnpBSMi" ++
    "gBHQnBtCnercNdBbBkeBZgizhBnjCxfwgGeccqcBuCmjCacBedCxfEaiyiBphMsgNoBfGckBqeEihFeuOpuBZxcQojB" ++
    "HntBGtvBCPqhBEsxBLYfumuEezIBujBJtChbdbeCyBtbpBLan")

def connectorRanges : List (Nat × Nat) :=
  [(0x203F, 0x2040), (0x2054, 0x2054), (0xFE33, 0xFE34), (0xFE4D, 0xFE4F), (0xFF3F, 0xFF3F)]

def inRanges (ranges : List (Nat × Nat)) (c : Char) : Bool :=
  ranges.any fun (low, high) => low ≤ c.toNat && c.toNat ≤ high

def isAlphabetic (c : Char) : Bool :=
  if c.toNat < 0x80 then c.isAlpha
  else inRanges letterRanges c || inRanges alphabeticMarkRanges c

def isAlphanumeric (c : Char) : Bool :=
  if c.toNat < 0x80 then c.isAlphanum
  else isAlphabetic c || inRanges decimalDigitRanges c || inRanges otherNumberRanges c

def isNameStart (c : Char) : Bool :=
  if c.toNat < 0x80 then c.isAlpha || c = '$' || c = '_'
  else (inRanges letterRanges c && c.toNat != 0x2E2F) ||
    inRanges [(0x1885, 0x1886), (0x2118, 0x2118), (0x212E, 0x212E), (0x309B, 0x309C)] c

/-- Whether a character can follow in a name of a program; joiners and middle dots can. -/
def isNamePart (c : Char) : Bool :=
  if c.toNat < 0x80 then c.isAlphanum || c = '$' || c = '_'
  else isNameStart c || inRanges markRanges c || inRanges decimalDigitRanges c ||
    inRanges connectorRanges c ||
    inRanges [(0xB7, 0xB7), (0x387, 0x387), (0x1369, 0x1371), (0x19DA, 0x19DA),
      (0x200C, 0x200D), (0x30FB, 0x30FB), (0xFF65, 0xFF65)] c

end PropContract.Text
