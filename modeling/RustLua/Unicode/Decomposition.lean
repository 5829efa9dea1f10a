import RustLua.Unicode.Marks

/-!
Canonical decompositions of Unicode 15, one step each, without the Hangul
syllables, which follow a rule. A character stands for one other or for two.
-/

namespace RustLua.Unicode

/-- Characters that stand for two, by the second of the two, from U+0300 on. It comes with the
characters that end in it, each as its distance from the one before and the first of its two. -/
def pairs300 : List (Nat × List Nat) :=
  [(0x300, [192, 65, 8, 69, 4, 73, 6, 79, 7, 85, 7, 97, 8, 101, 4, 105, 6, 111, 7, 117, 226, 220,
   1, 252, 28, 78, 1, 110, 519, 1045, 13, 1048, 67, 1077, 13, 1080, 6583, 274, 1, 275, 59, 332, 1,
   333, 47, 87, 1, 119, 37, 194, 1, 226, 9, 258, 1, 259, 15, 202, 1, 234, 17, 212, 1, 244, 9, 416,
   1, 417, 13, 431, 1, 432, 7, 89, 1, 121, 15, 7936, 1, 7937, 7, 7944, 1, 7945, 7, 7952, 1, 7953,
   7, 7960, 1, 7961, 7, 7968, 1, 7969, 7, 7976, 1, 7977, 7, 7984, 1, 7985, 7, 7992, 1, 7993, 7,
   8000, 1, 8001, 7, 8008, 1, 8009, 7, 8016, 1, 8017, 8, 8025, 7, 8032, 1, 8033, 7, 8040, 1, 8041,
   5, 945, 2, 949, 2, 951, 2, 953, 2, 959, 2, 965, 2, 969, 62, 913, 14, 917, 2, 919, 3, 8127, 5,
   970, 8, 921, 3, 8190, 5, 971, 8, 933, 3, 168, 11, 927, 2, 937]), (0x301, [193, 65, 8, 69, 4,
   73, 6, 79, 7, 85, 3, 89, 4, 97, 8, 101, 4, 105, 6, 111, 7, 117, 3, 121, 9, 67, 1, 99, 50, 76,
   1, 108, 9, 78, 1, 110, 16, 82, 1, 114, 5, 83, 1, 115, 30, 90, 1, 122, 93, 220, 1, 252, 28, 71,
   1, 103, 5, 197, 1, 229, 1, 198, 1, 230, 1, 216, 1, 248, 325, 776, 65, 168, 1, 913, 2, 917, 1,
   919, 1, 921, 2, 927, 2, 933, 1, 937, 1, 970, 28, 945, 1, 949, 1, 951, 1, 953, 1, 971, 28, 959,
   1, 965, 1, 969, 5, 978, 48, 1043, 9, 1050, 71, 1075, 9, 1082, 6572, 199, 1, 231, 13, 274, 1,
   275, 23, 207, 1, 239, 1, 75, 1, 107, 13, 77, 1, 109, 13, 213, 1, 245, 5, 332, 1, 333, 1, 80, 1,
   112, 35, 360, 1, 361, 9, 87, 1, 119, 33, 194, 1, 226, 9, 258, 1, 259, 15, 202, 1, 234, 17, 212,
   1, 244, 9, 416, 1, 417, 13, 431, 1, 432, 27, 7936, 1, 7937, 7, 7944, 1, 7945, 7, 7952, 1, 7953,
   7, 7960, 1, 7961, 7, 7968, 1, 7969, 7, 7976, 1, 7977, 7, 7984, 1, 7985, 7, 7992, 1, 7993, 7,
   8000, 1, 8001, 7, 8008, 1, 8009, 7, 8016, 1, 8017, 8, 8025, 7, 8032, 1, 8033, 7, 8040, 1, 8041,
   97, 8127, 16, 8190]), (0x302, [194, 65, 8, 69, 4, 73, 6, 79, 7, 85, 7, 97, 8, 101, 4, 105, 6,
   111, 7, 117, 13, 67, 1, 99, 19, 71, 1, 103, 7, 72, 1, 104, 15, 74, 1, 106, 39, 83, 1, 115, 23,
   87, 1, 119, 1, 89, 1, 121, 7449, 90, 1, 122, 27, 7840, 1, 7841, 25, 7864, 1, 7865, 17, 7884, 1,
   7885]), (0x303, [195, 65, 14, 78, 4, 79, 14, 97, 14, 110, 4, 111, 51, 73, 1, 105, 63, 85, 1,
   117, 7443, 86, 1, 118, 45, 194, 1, 226, 9, 258, 1, 259, 7, 69, 1, 101, 7, 202, 1, 234, 17, 212,
   1, 244, 9, 416, 1, 417, 13, 431, 1, 432, 9, 89, 1, 121])]

/-- The same with second characters from U+0304 on. -/
def pairs304 : List (Nat × List Nat) :=
  [(0x304, [256, 65, 1, 97, 17, 69, 1, 101, 23, 73, 1, 105, 33, 79, 1, 111, 29, 85, 1, 117, 106,
   220, 1, 252, 8, 196, 1, 228, 1, 550, 1, 551, 1, 198, 1, 230, 9, 490, 1, 491, 61, 214, 1, 246,
   1, 213, 1, 245, 3, 558, 1, 559, 1, 89, 1, 121, 687, 1048, 1, 1080, 11, 1059, 1, 1091, 6449, 71,
   1, 103, 23, 7734, 1, 7735, 35, 7770, 1, 7771, 340, 945, 8, 913, 24, 953, 8, 921, 8, 965, 8,
   933]), (0x306, [258, 65, 1, 97, 17, 69, 1, 101, 9, 71, 1, 103, 13, 73, 1, 105, 33, 79, 1, 111,
   29, 85, 1, 117, 673, 1059, 11, 1048, 32, 1080, 37, 1091, 99, 1046, 1, 1078, 14, 1040, 1, 1072,
   5, 1045, 1, 1077, 6469, 552, 1, 553, 153, 7840, 1, 7841, 249, 945, 8, 913, 24, 953, 8, 921, 8,
   965, 8, 933]), (0x307, [266, 67, 1, 99, 11, 69, 1, 101, 9, 71, 1, 103, 15, 73, 75, 90, 1, 122,
   170, 65, 1, 97, 7, 79, 1, 111, 7123, 66, 1, 98, 7, 68, 1, 100, 19, 70, 1, 102, 3, 72, 1, 104,
   29, 77, 1, 109, 3, 78, 1, 110, 17, 80, 1, 112, 1, 82, 1, 114, 7, 83, 1, 115, 3, 346, 1, 347, 1,
   352, 1, 353, 1, 7778, 1, 7779, 1, 84, 1, 116, 27, 87, 1, 119, 3, 88, 1, 120, 3, 89, 1, 121, 12,
   383]), (0x308, [196, 65, 7, 69, 4, 73, 7, 79, 6, 85, 8, 97, 7, 101, 4, 105, 7, 111, 6, 117, 3,
   121, 121, 89, 562, 921, 1, 933, 31, 953, 1, 965, 9, 978, 45, 1045, 6, 1030, 74, 1077, 6, 1110,
   123, 1040, 1, 1072, 7, 1240, 1, 1241, 1, 1046, 1, 1078, 1, 1047, 1, 1079, 5, 1048, 1, 1080, 1,
   1054, 1, 1086, 3, 1256, 1, 1257, 1, 1069, 1, 1101, 3, 1059, 1, 1091, 3, 1063, 1, 1095, 3, 1067,
   1, 1099, 6445, 72, 1, 104, 39, 213, 1, 245, 43, 362, 1, 363, 9, 87, 1, 119, 7, 88, 1, 120, 10,
   116]), (0x309, [7842, 65, 1, 97, 5, 194, 1, 226, 9, 258, 1, 259, 7, 69, 1, 101, 7, 202, 1, 234,
   5, 73, 1, 105, 5, 79, 1, 111, 5, 212, 1, 244, 9, 416, 1, 417, 7, 85, 1, 117, 5, 431, 1, 432, 9,
   89, 1, 121]), (0x30A, [197, 65, 32, 97, 137, 85, 1, 117, 7465, 119, 1, 121]), (0x30B, [336, 79,
   1, 111, 31, 85, 1, 117, 897, 1059, 1, 1091]), (0x30C, [268, 67, 1, 99, 1, 68, 1, 100, 11, 69,
   1, 101, 34, 76, 1, 108, 9, 78, 1, 110, 16, 82, 1, 114, 7, 83, 1, 115, 3, 84, 1, 116, 24, 90, 1,
   122, 79, 65, 1, 97, 1, 73, 1, 105, 1, 79, 1, 111, 1, 85, 1, 117, 5, 220, 1, 252, 12, 71, 1,
   103, 1, 75, 1, 107, 5, 439, 1, 658, 1, 106, 46, 72, 1, 104]), (0x30F, [512, 65, 1, 97, 3, 69,
   1, 101, 3, 73, 1, 105, 3, 79, 1, 111, 3, 82, 1, 114, 3, 85, 1, 117, 609, 1140, 1, 1141]),
   (0x311, [514, 65, 1, 97, 3, 69, 1, 101, 3, 73, 1, 105, 3, 79, 1, 111, 3, 82, 1, 114, 3, 85, 1,
   117]), (0x313, [7936, 945, 8, 913, 8, 949, 8, 917, 8, 951, 8, 919, 8, 953, 8, 921, 8, 959, 8,
   927, 8, 965, 16, 969, 8, 937, 124, 961])]

/-- The same with second characters from U+0314 on. -/
def pairs314 : List (Nat × List Nat) :=
  [(0x314, [7937, 945, 8, 913, 8, 949, 8, 917, 8, 951, 8, 919, 8, 953, 8, 921, 8, 959, 8, 927, 8,
   965, 8, 933, 8, 969, 8, 937, 124, 961, 7, 929]), (0x31B, [416, 79, 1, 111, 14, 85, 1, 117]),
   (0x323, [7684, 66, 1, 98, 7, 68, 1, 100, 23, 72, 1, 104, 13, 75, 1, 107, 3, 76, 1, 108, 11, 77,
   1, 109, 3, 78, 1, 110, 19, 82, 1, 114, 7, 83, 1, 115, 9, 84, 1, 116, 17, 86, 1, 118, 9, 87, 1,
   119, 9, 90, 1, 122, 13, 65, 1, 97, 23, 69, 1, 101, 17, 73, 1, 105, 1, 79, 1, 111, 21, 416, 1,
   417, 1, 85, 1, 117, 11, 431, 1, 432, 3, 89, 1, 121]), (0x324, [7794, 85, 1, 117]), (0x325,
   [7680, 65, 1, 97]), (0x326, [536, 83, 1, 115, 1, 84, 1, 116]), (0x327, [199, 67, 32, 99, 59,
   71, 1, 103, 19, 75, 1, 107, 4, 76, 1, 108, 9, 78, 1, 110, 16, 82, 1, 114, 7, 83, 1, 115, 3, 84,
   1, 116, 197, 69, 1, 101, 7143, 68, 1, 100, 23, 72, 1, 104]), (0x328, [260, 65, 1, 97, 19, 69,
   1, 101, 21, 73, 1, 105, 67, 85, 1, 117, 119, 79, 1, 111]), (0x32D, [7698, 68, 1, 100, 5, 69, 1,
   101, 35, 76, 1, 108, 13, 78, 1, 110, 37, 84, 1, 116, 5, 85, 1, 117]), (0x32E, [7722, 72, 1,
   104]), (0x330, [7706, 69, 1, 101, 17, 73, 1, 105, 71, 85, 1, 117]), (0x331, [7686, 66, 1, 98,
   7, 68, 1, 100, 37, 75, 1, 107, 5, 76, 1, 108, 13, 78, 1, 110, 21, 82, 1, 114, 15, 84, 1, 116,
   37, 90, 1, 122, 1, 104]), (0x338, [8602, 8592, 1, 8594, 19, 8596, 31, 8656, 1, 8660, 1, 8658,
   53, 8707, 5, 8712, 3, 8715, 24, 8739, 2, 8741, 27, 8764, 3, 8771, 3, 8773, 2, 8776, 23, 61, 2,
   8801, 11, 8781, 1, 60, 1, 62, 1, 8804, 1, 8805, 3, 8818, 1, 8819, 3, 8822, 1, 8823, 7, 8826, 1,
   8827, 3, 8834, 1, 8835, 3, 8838, 1, 8839, 35, 8866, 1, 8872, 1, 8873, 1, 8875, 49, 8828, 1,
   8829, 1, 8849, 1, 8850, 7, 8882, 1, 8883, 1, 8884, 1, 8885, 2031, 10973]), (0x342, [7942, 7936,
   1, 7937, 7, 7944, 1, 7945, 23, 7968, 1, 7969, 7, 7976, 1, 7977, 7, 7984, 1, 7985, 7, 7992, 1,
   7993, 23, 8016, 1, 8017, 8, 8025, 7, 8032, 1, 8033, 7, 8040, 1, 8041, 71, 945, 11, 168, 5, 951,
   9, 8127, 7, 953, 1, 970, 8, 8190, 7, 965, 1, 971, 15, 969]), (0x345, [8064, 7936, 1, 7937, 1,
   7938, 1, 7939, 1, 7940, 1, 7941, 1, 7942, 1, 7943, 1, 7944, 1, 7945, 1, 7946, 1, 7947, 1, 7948,
   1, 7949, 1, 7950, 1, 7951, 1, 7968, 1, 7969, 1, 7970, 1, 7971, 1, 7972, 1, 7973, 1, 7974, 1,
   7975, 1, 7976, 1, 7977, 1, 7978, 1, 7979, 1, 7980, 1, 7981, 1, 7982, 1, 7983, 1, 8032, 1, 8033,
   1, 8034, 1, 8035, 1, 8036, 1, 8037, 1, 8038, 1, 8039, 1, 8040, 1, 8041, 1, 8042, 1, 8043, 1,
   8044, 1, 8045, 1, 8046, 1, 8047, 3, 8048, 1, 945, 1, 940, 3, 8118, 5, 913, 6, 8052, 1, 951, 1,
   942, 3, 8134, 5, 919, 38, 8060, 1, 969, 1, 974, 3, 8182, 5, 937]), (0x5B4, [64285, 1497]),
   (0x5B7, [64287, 1522, 15, 1488]), (0x5B8, [64303, 1488]), (0x5B9, [64331, 1493])]

/-- The same with second characters from U+05BC on. -/
def pairs5BC : List (Nat × List Nat) :=
  [(0x5BC, [64304, 1488, 1, 1489, 1, 1490, 1, 1491, 1, 1492, 1, 1493, 1, 1494, 2, 1496, 1, 1497,
   1, 1498, 1, 1499, 1, 1500, 2, 1502, 2, 1504, 1, 1505, 2, 1507, 1, 1508, 2, 1510, 1, 1511, 1,
   1512, 1, 1513, 1, 1514]), (0x5BF, [64332, 1489, 1, 1499, 1, 1508]), (0x5C1, [64298, 1513, 2,
   64329]), (0x5C2, [64299, 1513, 2, 64329]), (0x653, [1570, 1575]), (0x654, [1571, 1575, 1, 1608,
   2, 1610, 154, 1749, 2, 1729, 17, 1746]), (0x655, [1573, 1575]), (0x93C, [2345, 2344, 8, 2352,
   3, 2355, 36, 2325, 1, 2326, 1, 2327, 1, 2332, 1, 2337, 1, 2338, 1, 2347, 1, 2351]), (0x9BC,
   [2524, 2465, 1, 2466, 2, 2479]), (0x9BE, [2507, 2503]), (0x9D7, [2508, 2503]), (0xA3C, [2611,
   2610, 3, 2616, 35, 2582, 1, 2583, 1, 2588, 3, 2603]), (0xB3C, [2908, 2849, 1, 2850]), (0xB3E,
   [2891, 2887]), (0xB56, [2888, 2887]), (0xB57, [2892, 2887]), (0xBBE, [3018, 3014, 1, 3015]),
   (0xBD7, [2964, 2962, 56, 3014]), (0xC56, [3144, 3142]), (0xCC2, [3274, 3270]), (0xCD5, [3264,
   3263, 7, 3270, 4, 3274]), (0xCD6, [3272, 3270]), (0xD3E, [3402, 3398, 1, 3399]), (0xD57, [3404,
   3398]), (0xDCA, [3546, 3545, 3, 3548]), (0xDCF, [3548, 3545]), (0xDDF, [3550, 3545]), (0xF72,
   [3955, 3953]), (0xF74, [3957, 3953]), (0xF80, [3958, 4018, 2, 4019, 9, 3953]), (0xFB5, [3945,
   3904, 80, 3984]), (0xFB7, [3907, 3906, 10, 3916, 5, 3921, 5, 3926, 5, 3931, 55, 3986, 10, 3996,
   5, 4001, 5, 4006, 5, 4011]), (0x102E, [4134, 4133]), (0x1B35, [6918, 6917, 2, 6919, 2, 6921, 2,
   6923, 2, 6925, 4, 6929, 41, 6970, 2, 6972, 3, 6974, 1, 6975, 2, 6978]), (0x3099, [12364, 12363,
   2, 12365, 2, 12367, 2, 12369, 2, 12371, 2, 12373, 2, 12375, 2, 12377, 2, 12379, 2, 12381, 2,
   12383, 2, 12385, 3, 12388, 2, 12390, 2, 12392, 7, 12399, 3, 12402, 3, 12405, 3, 12408, 3,
   12411, 24, 12358, 10, 12445, 14, 12459, 2, 12461, 2, 12463, 2, 12465, 2, 12467, 2, 12469, 2,
   12471, 2, 12473, 2, 12475, 2, 12477, 2, 12479, 2, 12481, 3, 12484, 2, 12486, 2, 12488, 7,
   12495, 3, 12498, 3, 12501, 3, 12504, 3, 12507, 24, 12454, 3, 12527, 1, 12528, 1, 12529, 1,
   12530, 4, 12541]), (0x309A, [12401, 12399, 3, 12402, 3, 12405, 3, 12408, 3, 12411, 84, 12495,
   3, 12498, 3, 12501, 3, 12504, 3, 12507]), (0x110BA, [69786, 69785, 2, 69787, 15, 69797]),
   (0x11127, [69934, 69937, 1, 69938]), (0x1133E, [70475, 70471]), (0x11357, [70476, 70471]),
   (0x114B0, [70844, 70841]), (0x114BA, [70843, 70841]), (0x114BD, [70846, 70841]), (0x115AF,
   [71098, 71096, 1, 71097]), (0x11930, [71992, 71989]), (0x1D165, [119134, 119127, 1, 119128, 92,
   119225, 1, 119226]), (0x1D16E, [119136, 119135, 93, 119227, 1, 119228]), (0x1D16F, [119137,
   119135, 94, 119227, 1, 119228]), (0x1D170, [119138, 119135]), (0x1D171, [119139, 119135]),
   (0x1D172, [119140, 119135])]

/-- Characters that stand for one other: the first of a run, and what those of the run
stand for, from U+0340 on. -/
def singles340 : List (Nat × List Nat) :=
  [(0x340, [768, 769]), (0x343, [787]), (0x374, [697]), (0x37E, [59]), (0x387, [183]), (0x1F71,
   [940]), (0x1F73, [941]), (0x1F75, [942]), (0x1F77, [943]), (0x1F79, [972]), (0x1F7B, [973]),
   (0x1F7D, [974]), (0x1FBB, [902]), (0x1FBE, [953]), (0x1FC9, [904]), (0x1FCB, [905]), (0x1FD3,
   [912]), (0x1FDB, [906]), (0x1FE3, [944]), (0x1FEB, [910]), (0x1FEE, [901, 96]), (0x1FF9,
   [908]), (0x1FFB, [911]), (0x1FFD, [180]), (0x2000, [8194, 8195]), (0x2126, [937]), (0x212A,
   [75, 197]), (0x2329, [12296, 12297]), (0xF900, [35912, 26356, 36554, 36040, 28369, 20018,
   21477, 40860, 40860, 22865, 37329, 21895, 22856, 25078, 30313, 32645, 34367, 34746, 35064,
   37007, 27138, 27931, 28889, 29662, 33853, 37226, 39409, 20098, 21365, 27396, 29211, 34349,
   40478, 23888, 28651, 34253, 35172, 25289, 33240, 34847, 24266, 26391, 28010, 29436, 37070,
   20358, 20919, 21214, 25796, 27347, 29200, 30439, 32769, 34310, 34396, 36335, 38706, 39791,
   40442, 30860, 31103, 32160, 33737, 37636, 40575, 35542, 22751, 24324, 31840, 32894, 29282,
   30922, 36034, 38647, 22744, 23650, 27155, 28122, 28431, 32047, 32311, 38475, 21202, 32907,
   20956, 20940, 31260, 32190, 33777, 38517, 35712, 25295, 27138, 35582, 20025, 23527, 24594,
   29575, 30064, 21271, 30971, 20415, 24489, 19981, 27852, 25976, 32034, 21443, 22622, 30465,
   33865, 35498, 27578, 36784, 27784, 25342, 33509, 25504, 30053, 20142, 20841, 20937, 26753,
   31975, 33391, 35538, 37327, 21237, 21570, 22899, 24300, 26053, 28670, 31018, 38317, 39530,
   40599, 40654, 21147, 26310, 27511, 36706, 24180, 24976, 25088, 25754, 28451, 29001, 29833,
   31178, 32244, 32879, 36646, 34030, 36899, 37706, 21015, 21155, 21693, 28872, 35010, 35498,
   24265, 24565, 25467, 27566, 31806, 29557, 20196, 22265, 23527, 23994, 24604, 29618, 29801,
   32666, 32838, 37428, 38646, 38728, 38936, 20363, 31150, 37300, 38584, 24801, 20102, 20698,
   23534, 23615, 26009, 27138, 29134, 30274, 34044, 36988, 40845, 26248, 38446, 21129, 26491,
   26611, 27969, 28316, 29705, 30041, 30827, 32016, 39006, 20845, 25134, 38520, 20523, 23833,
   28138, 36650, 24459, 24900, 26647, 29575, 38534, 21033, 21519, 23653, 26131, 26446, 26792,
   27877, 29702, 30178, 32633, 35023, 35041, 37324, 38626, 21311, 28346, 21533, 29136, 29848,
   34298, 38563, 40023, 40607, 26519, 28107, 33256, 31435, 31520, 31890, 29376, 28825, 35672,
   20160, 33590, 21050])]

/-- The same from U+FA00 on. -/
def singlesFA00 : List (Nat × List Nat) :=
  [(0xFA00, [20999, 24230, 25299, 31958, 23429, 27934, 26292, 36667, 34892, 38477, 35211, 24275,
   20800, 21952]), (0xFA10, [22618]), (0xFA12, [26228]), (0xFA15, [20958, 29482, 30410, 31036,
   31070, 31077, 31119, 38742, 31934, 32701]), (0xFA20, [34322]), (0xFA22, [35576]), (0xFA25,
   [36920, 37117]), (0xFA2A, [39151, 39164, 39208, 40372, 37086, 38583, 20398, 20711, 20813,
   21193, 21220, 21329, 21917, 22022, 22120, 22592, 22696, 23652, 23662, 24724, 24936, 24974,
   25074, 25935, 26082, 26257, 26757, 28023, 28186, 28450, 29038, 29227, 29730, 30865, 31038,
   31049, 31048, 31056, 31062, 31069, 31117, 31118, 31296, 31361, 31680, 32244, 32265, 32321,
   32626, 32773, 33261, 33401, 33401, 33879, 35088, 35222, 35585, 35641, 36051, 36104, 36790,
   36920, 38627, 38911, 38971, 24693, 148206, 33304]), (0xFA70, [20006, 20917, 20840, 20352,
   20805, 20864, 21191, 21242, 21917, 21845, 21913, 21986, 22618, 22707, 22852, 22868, 23138,
   23336, 24274, 24281, 24425, 24493, 24792, 24910, 24840, 24974, 24928, 25074, 25140, 25540,
   25628, 25682, 25942, 26228, 26391, 26395, 26454, 27513, 27578, 27969, 28379, 28363, 28450,
   28702, 29038, 30631, 29237, 29359, 29482, 29809, 29958, 30011, 30237, 30239, 30410, 30427,
   30452, 30538, 30528, 30924, 31409, 31680, 31867, 32091, 32244, 32574, 32773, 33618, 33775,
   34681, 35137, 35206, 35222, 35519, 35576, 35531, 35585, 35582, 35565, 35641, 35722, 36104,
   36664, 36978, 37273, 37494, 38524, 38627, 38742, 38875, 38911, 38923, 38971, 39698, 40860,
   141386, 141380, 144341, 15261, 16408, 16441, 152137, 154832, 163539, 40771, 40846])]

/-- The same from U+2F800 on. -/
def singles2F800 : List (Nat × List Nat) :=
  [(0x2F800, [20029, 20024, 20033, 131362, 20320, 20398, 20411, 20482, 20602, 20633, 20711, 20687,
   13470, 132666, 20813, 20820, 20836, 20855, 132380, 13497, 20839, 20877, 132427, 20887, 20900,
   20172, 20908, 20917, 168415, 20981, 20995, 13535, 21051, 21062, 21106, 21111, 13589, 21191,
   21193, 21220, 21242, 21253, 21254, 21271, 21321, 21329, 21338, 21363, 21373, 21375, 21375,
   21375, 133676, 28784, 21450, 21471, 133987, 21483, 21489, 21510, 21662, 21560, 21576, 21608,
   21666, 21750, 21776, 21843, 21859, 21892, 21892, 21913, 21931, 21939, 21954, 22294, 22022,
   22295, 22097, 22132, 20999, 22766, 22478, 22516, 22541, 22411, 22578, 22577, 22700, 136420,
   22770, 22775, 22790, 22810, 22818, 22882, 136872, 136938, 23020, 23067, 23079, 23000, 23142,
   14062, 14076, 23304, 23358, 23358, 137672, 23491, 23512, 23527, 23539, 138008, 23551, 23558,
   24403, 23586, 14209, 23648, 23662, 23744, 23693, 138724, 23875, 138726, 23918, 23915, 23932,
   24033, 24034, 14383, 24061, 24104, 24125, 24169, 14434, 139651, 14460, 24240, 24243, 24246,
   24266, 172946, 24318, 140081, 140081, 33281, 24354, 24354, 14535, 144056, 156122, 24418, 24427,
   14563, 24474, 24525, 24535, 24569, 24705, 14650, 14620, 24724, 141012, 24775, 24904, 24908,
   24910, 24908, 24954, 24974, 25010, 24996, 25007, 25054, 25074, 25078, 25104, 25115, 25181,
   25265, 25300, 25424, 142092, 25405, 25340, 25448, 25475, 25572, 142321, 25634, 25541, 25513,
   14894, 25705, 25726, 25757, 25719, 14956, 25935, 25964, 143370, 26083, 26360, 26185, 15129,
   26257, 15112, 15076, 20882, 20885, 26368, 26268, 32941, 17369, 26391, 26395, 26401, 26462,
   26451, 144323, 15177, 26618, 26501, 26706, 26757, 144493, 26766, 26655, 26900, 15261, 26946,
   27043, 27114, 27304, 145059, 27355, 15384, 27425, 145575, 27476, 15438, 27506, 27551, 27578,
   27579, 146061, 138507, 146170, 27726, 146620, 27839, 27853, 27751, 27926])]

/-- The same from U+2F900 on. -/
def singles2F900 : List (Nat × List Nat) :=
  [(0x2F900, [27966, 28023, 27969, 28009, 28024, 28037, 146718, 27956, 28207, 28270, 15667, 28363,
   28359, 147153, 28153, 28526, 147294, 147342, 28614, 28729, 28702, 28699, 15766, 28746, 28797,
   28791, 28845, 132389, 28997, 148067, 29084, 148395, 29224, 29237, 29264, 149000, 29312, 29333,
   149301, 149524, 29562, 29579, 16044, 29605, 16056, 16056, 29767, 29788, 29809, 29829, 29898,
   16155, 29988, 150582, 30014, 150674, 30064, 139679, 30224, 151457, 151480, 151620, 16380,
   16392, 30452, 151795, 151794, 151833, 151859, 30494, 30495, 30495, 30538, 16441, 30603, 16454,
   16534, 152605, 30798, 30860, 30924, 16611, 153126, 31062, 153242, 153285, 31119, 31211, 16687,
   31296, 31306, 31311, 153980, 154279, 154279, 31470, 16898, 154539, 31686, 31689, 16935, 154752,
   31954, 17056, 31976, 31971, 32000, 155526, 32099, 17153, 32199, 32258, 32325, 17204, 156200,
   156231, 17241, 156377, 32634, 156478, 32661, 32762, 32773, 156890, 156963, 32864, 157096,
   32880, 144223, 17365, 32946, 33027, 17419, 33086, 23221, 157607, 157621, 144275, 144284, 33281,
   33284, 36766, 17515, 33425, 33419, 33437, 21171, 33457, 33459, 33469, 33510, 158524, 33509,
   33565, 33635, 33709, 33571, 33725, 33767, 33879, 33619, 33738, 33740, 33756, 158774, 159083,
   158933, 17707, 34033, 34035, 34070, 160714, 34148, 159532, 17757, 17761, 159665, 159954, 17771,
   34384, 34396, 34407, 34409, 34473, 34440, 34574, 34530, 34681, 34600, 34667, 34694, 17879,
   34785, 34817, 17913, 34912, 34915, 161383, 35031, 35038, 17973, 35066, 13499, 161966, 162150,
   18110, 18119, 35488, 35565, 35722, 35925, 162984, 36011, 36033, 36123, 36215, 163631, 133124,
   36299, 36284, 36336, 133342, 36564, 36664, 165330, 165357, 37012, 37105, 37137, 165678, 37147,
   37432, 37591, 37592, 37500, 37881, 37909, 166906, 38283, 18837, 38327, 167287, 18918, 38595,
   23986, 38691, 168261, 168474, 19054, 19062, 38880, 168970, 19122, 169110, 38923, 38923]),
   (0x2FA00, [38953, 169398, 39138, 19251, 39209, 39335, 39362, 39422, 19406, 170800, 39698,
   40000, 40189, 19662, 19693, 40295, 172238, 19704, 172293, 172558, 172689, 40635, 19798, 40697,
   40702, 40709, 40719, 40726, 40763, 173568])]

/-- The characters behind `c` that end in `second`, with the two that they stand for. -/
def pairRows (second : Nat) : Nat → List Nat → List (Nat × Nat × Nat)
  | c, distance :: first :: rest =>
    (c + distance, first, second) :: pairRows second (c + distance) rest
  | _, _ => []

/-- All characters with a canonical decomposition, each with the one or two characters that it
stands for, a 0 in place of the second one if there is none. -/
def decompositionTable : List (Nat × Nat × Nat) :=
  (pairs300 ++ pairs304 ++ pairs314 ++ pairs5BC).flatMap (fun (second, rows) =>
      pairRows second 0 rows) ++
    (singles340 ++ singlesFA00 ++ singles2F800 ++ singles2F900).flatMap fun (start, run) =>
      (run.zipIdx start).map fun (c, n) => (n, c, 0)

/-- Characters that decompose into two and are not composed again. -/
def notComposed : Runs :=
  [836, 1, 1555, 8, 124, 2, 1, 1, 83, 1, 2, 1, 34, 3, 2, 1, 253, 2, 997, 1, 9, 1, 4, 1, 4, 1, 4,
   1, 12, 1, 9, 1, 1, 2, 1, 1, 8, 1, 17, 1, 9, 1, 4, 1, 4, 1, 4, 1, 12, 1, 6946, 1, 53312, 1, 1,
   1, 10, 13, 1, 5, 1, 1, 1, 2, 1, 2, 1, 9, 54799, 7, 86, 6]

end RustLua.Unicode
