/-! # Round constants and the internal diagonal

Two tables of field elements. They were drawn from an extendable-output hash of a fixed label and
reduced modulo the field order, so that nobody could choose them; the machine only needs their
values, and every digest it hands out depends on them. -/

namespace FieldLisp.Permutation

/-- Constants added before the S-boxes, in three stretches: sixteen for each full round of the first
half, one for each partial round, sixteen for each full round of the second half. -/
def roundTable : Vector Int 150 := #v[
  936220775526765298, 6839277448005096163, 8539374839631682451, 8279180631335525086,
  12379566168089941213, 11734354755094415135, 14863528153070723975, 4982007640802577085,
  1966713060432055452, 2007432386622732031, 5330666879065130008, 17064459004078518036,
  1809360143909574187, 3357496369948037263, 7450293140405108115, 8942928872032625241,
  6317228364905666442, 12594322614405705843, 9798090767057958098, 8032138387358150025,
  10561449344816382155, 11755973421186492429, 11752604674640664495, 1739974270553267410,
  13834846005396005476, 16364300244371681422, 17875295143275073639, 3697441678396066700,
  6022979198397076802, 12434182556702477554, 6059954856875237221, 9868785949415188644,
  15980618767235963996, 14356768922285479342, 14936807882387488897, 5845270146601615946,
  14702447918825096328, 10557585363231085412, 13436481642192639907, 2713190442731027936,
  3516670237971690689, 16021490654864735943, 5932428689228534405, 9768845318870042143,
  591935578405641578, 7907965830786546139, 8166838264923129382, 7109332253083588279,
  1848253470709572696, 2752984559230500161, 12158400574063492820, 4135389185625162088,
  10552612348094735041, 2548780150640711567, 11810576956171689713, 11593097667995865062,
  16434347745885193925, 11236211844198529828, 11458958345933553597, 1684558457383029385,
  4444065032137723051, 12685344689341444582, 17061168628066691362, 14552704338904170564,
  3437774546483085379, 398831924608892587, 18421298891532306462, 5481273985007744920,
  7533613060586798672, 11651078803159009814, 6721991713571081899, 10561108914938272663,
  10326974411153614173, 7579920927917211998, 8401308033857125643, 12048250469141863340,
  3891755320458650322, 15482511215664093074, 933769393836869616, 9596338544163643705,
  3416375302810392110, 10363525798212281260, 14422270611515155670, 3810690346084803148,
  15862149480038913797, 17012824402154199896, 14287695767970764545, 18102864816391255628,
  17925454782376036744, 13830908390409376479, 10891526810490434020, 7569881333264283873,
  5686349847332704436, 5674596155583401530, 4016597231154701034, 6733033273469597536,
  13616254084319663128, 12683474855591248913, 1116605035553874823, 1333954137216290435,
  11916974301529531968, 16726350513942297794, 15489375251927750257, 16047835961486581320,
  11523879723243886852, 9159486866384030190, 3996793022750615328, 10126415983461012652,
  3110046985136185875, 16108558056987932589, 6919027634030009572, 17719426047441116209,
  3294387545288831956, 1294813853313265244, 365411559445431987, 12744798931125411893,
  16347469057591602635, 13413404567092019384, 11196689637848706650, 1319449845303111752,
  10946133555659743870, 7000557618851388950, 3064058007998981811, 5488522400273456043,
  222623322194997933, 13428769591858860510, 7836781850874853093, 947900021971863898,
  9224281848749793107, 3098067066002090410, 12425682500514570322, 4567485311606644282,
  2398386152231044666, 2042456976458598504, 12705402739211345261, 5330358883086787405,
  17326960483791684706, 16312394491051675066, 4466430433376709878, 12734638912367769940,
  12933513352218729607, 10436643151777421412, 10642293009711560412, 12325357843613872753,
  16824887594614009721, 4975456688673801610, 8315310736057019518, 16795062065611434661,
  9553933041390351275, 1785800250704930065]

/-- Diagonal of the matrix that mixes the lanes in a partial round. No entry is zero or one. -/
def diagonal : Vector Int 16 := #v[
  7759920842149395465, 6112443747291483945, 4073905608711815854, 17385222082553345784,
  9385765503135359435, 2986450298684727856, 9721860851140106364, 15672785420124394868,
  16596315897380998848, 11381673681704761295, 3555776311200355336, 469517022594883882,
  6262459772746055067, 13696648568172394412, 917013502518761188, 17747804527643933093]

end FieldLisp.Permutation
